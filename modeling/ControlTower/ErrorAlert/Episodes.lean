import ControlTower.Data.Sorting
import ControlTower.ErrorAlert.Notifier

/-! Alerts follow episodes.

`Episode` says once what a call can do to a dimension: re-arm it, alert, remind, or leave it
alone. A dimension that has alerted stays so until it is re-armed, and the time of its last
message is that of the last one that was sent. What is in a window came with the events of
its dimension; an entry that is kept by age while later ones are dropped can be older than
the window is long. -/
namespace ControlTower.ErrorAlert
open Go Data List Bool

section Call
variable (n : Notifier)

/-! ### One dimension -/

/-- An event that counts for a dimension. -/
def belongs (key : Dimension) (event : Event) : Bool :=
  match key with
  | .channel id => event.channelID == id && decide (0 < id) && includeInWindow n event
  | .user id => event.userID == id && decide (0 < id) && includeInWindow n event

variable (state : Option DimensionState)

/-- What an observed event does to its dimension. -/
def observed (event : Event) : Option DimensionState :=
  observeLocked n (fun _ => state) (.user 0) event (.user 0)

theorem observeLocked_apply (states : States) (key key' : Dimension) (event : Event) :
    observeLocked n states key event key' = if key' = key then observed n (states key) event
      else states key' := by
  by_cases h : key' = key
  · subst h
    rw [if_pos rfl]
    simp [observeLocked, observed]
  · rw [if_neg h]
    exact Function.update_of_ne h _ _

theorem observeEvent_apply (disabledChannels : Int → Bool) (states : States) (event : Event)
    (key : Dimension) :
    observeEvent n disabledChannels states event key =
      if belongs n key event && !isDisabled disabledChannels key then observed n (states key) event
        else states key := by
  cases key with
  | channel id =>
    have huser : ∀ states' : States,
        (if 0 < event.userID && includeInWindow n event then observeLocked n states'
          (.user event.userID) event else states') (.channel id) =
        states' (.channel id) := by
      intro states'
      split
      · rw [observeLocked_apply, if_neg (by simp)]
      · rfl
    rw [observeEvent, huser]
    by_cases hid : event.channelID = id
    · subst hid
      by_cases hpos : 0 < event.channelID <;> cases hdis : disabledChannels event.channelID <;>
        cases hinc : includeInWindow n event <;>
        simp [belongs, isDisabled, hpos, hdis, hinc, observeLocked_apply]
    · have hbelongs : belongs n (.channel id) event = false := by simp [belongs, hid]
      rw [hbelongs, Bool.false_and, if_neg Bool.false_ne_true]
      split
      · rw [observeLocked_apply, if_neg (fun heq => hid (Dimension.channel.inj heq).symm)]
      · rfl
  | user id =>
    have hchannel : ∀ b : Bool, (if b then observeLocked n states (.channel event.channelID) event
        else states) (.user id) = states (.user id) := by
      intro b
      cases b
      · rfl
      · exact (observeLocked_apply n states _ _ event).trans (if_neg (by simp))
    rw [observeEvent]
    by_cases hid : event.userID = id
    · subst hid
      by_cases hpos : 0 < event.userID <;> cases hinc : includeInWindow n event <;>
        simp [belongs, isDisabled, hpos, hinc, observeLocked_apply] <;> split <;>
          simp [observeLocked_apply]
    · have hbelongs : belongs n (.user id) event = false := by simp [belongs, hid]
      rw [hbelongs, Bool.false_and, if_neg Bool.false_ne_true]
      split
      · rw [observeLocked_apply, if_neg (fun heq => hid (Dimension.user.inj heq).symm), hchannel]
      · rw [hchannel]

/-- The events of a call, as one dimension sees them. -/
theorem observeAll_apply (disabledChannels : Int → Bool) (events : List Event) (states : States)
    (key : Dimension) :
    events.foldl (observeEvent n disabledChannels) states key =
      if isDisabled disabledChannels key then states key
        else (events.filter (belongs n key)).foldl (observed n) (states key) := by
  induction events generalizing states with
  | nil => simp
  | cons event events ih =>
    rw [foldl_cons, ih, observeEvent_apply]
    cases hdis : isDisabled disabledChannels key <;> cases hb : belongs n key event <;> simp [hb]

/-- The rule of a dimension; one that is not there is as it is made. -/
def ruleOf : RuleState := state.elim RuleState.zero DimensionState.errorRule

def windowOf : List Outcome := state.elim [] DimensionState.outcomes

theorem windowOf_observed (event : Event) :
    windowOf (observed n state event) = (windowOf state ++ [event.outcome]).drop
      ((windowOf state ++ [event.outcome]).length - n.window) := by
  cases state <;> simp [windowOf, observed, observeLocked]

/-- Events move neither the mark nor the time of the last message. -/
theorem ruleOf_observed (event : Event) :
    (ruleOf (observed n state event)).alerted = (ruleOf state).alerted ∧
      (ruleOf (observed n state event)).lastRemindAt = (ruleOf state).lastRemindAt := by
  cases state with
  | none => simp [ruleOf, observed, observeLocked, RuleState.zero]
  | some state =>
    simp only [ruleOf, observed, observeLocked, Function.update_self, Option.getD_some,
      Option.elim_some]
    split <;> exact ⟨rfl, rfl⟩

theorem ruleOf_foldl (events : List Event) (state : Option DimensionState) :
    (ruleOf (events.foldl (observed n) state)).alerted = (ruleOf state).alerted ∧
      (ruleOf (events.foldl (observed n) state)).lastRemindAt = (ruleOf state).lastRemindAt := by
  induction events generalizing state with
  | nil => exact ⟨rfl, rfl⟩
  | cons event events ih =>
    obtain ⟨halerted, hlast⟩ := ruleOf_observed n state event
    obtain ⟨halerted', hlast'⟩ := ih (observed n state event)
    exact ⟨halerted'.trans halerted, hlast'.trans hlast⟩

/-! ### What a call can do -/

/-- The window is evaluated and has reached the threshold. -/
def Visit.firing (v : Visit) : Prop := v.disabled = false ∧ n.threshold ≤ v.errors

/-- What a call can do to the mark and to the time of the last message. -/
inductive Episode (before after : RuleState) (v : Visit) : Prop
  | rearm (h : ¬v.firing n) (hmessage : v.message = none) (hafter : after.alerted = false)
  | alert (h : v.firing n) (hbefore : before.alerted = false) (hmessage : v.message = some .alert)
      (hafter : after.alerted = v.sent) (hlast : after.lastRemindAt = v.now)
  | remind (h : v.firing n) (hbefore : before.alerted = true) (hmessage : v.message = some .remind)
      (hdue : n.remindInterval ≤ v.now - before.lastRemindAt)
      (hafter : after.alerted = true)
      (hlast : after.lastRemindAt = if v.sent then v.now else before.lastRemindAt)
  | quiet (h : v.firing n) (hbefore : before.alerted = true) (hmessage : v.message = none)
      (hafter : after.alerted = true) (hlast : after.lastRemindAt = before.lastRemindAt)

section
variable {n} {before after : RuleState} {v : Visit}

theorem Episode.of_unalerted (h : Episode n before after v) (hfiring : v.firing n)
    (hbefore : before.alerted = false) :
    v.message = some .alert ∧ after.alerted = v.sent := by
  cases h with
  | rearm h _ _ => exact absurd hfiring h
  | alert _ _ hmessage hafter _ => exact ⟨hmessage, hafter⟩
  | remind _ h _ _ _ _ => exact absurd (hbefore.symm.trans h) false_ne_true
  | quiet _ h _ _ _ => exact absurd (hbefore.symm.trans h) false_ne_true

theorem Episode.of_message (h : Episode n before after v) {kind : Kind}
    (hmessage : v.message = some kind) :
    (kind = .alert → before.alerted = false ∧ after.alerted = v.sent) ∧
      (kind = .remind → n.remindInterval ≤ v.now - before.lastRemindAt) := by
  cases h with
  | rearm _ h _ => exact nomatch h.symm.trans hmessage
  | alert _ hbefore h hafter _ =>
    cases h.symm.trans hmessage
    exact ⟨fun _ => ⟨hbefore, hafter⟩, nofun⟩
  | remind _ _ h hdue _ _ =>
    cases h.symm.trans hmessage
    exact ⟨nofun, fun _ => hdue⟩
  | quiet _ _ h _ _ => exact nomatch h.symm.trans hmessage

end

theorem visit_episode (hthreshold : 1 ≤ n.threshold) (call : Call) (key : Dimension)
    (state : Option DimensionState) :
    Episode n (ruleOf state) (ruleOf (visit n call key state).1) (visit n call key state).2 := by
  cases state with
  | none =>
    refine .rearm ?_ rfl rfl
    intro ⟨_, herrors⟩
    exact Nat.not_succ_le_zero 0 (hthreshold.trans herrors)
  | some state =>
    cases hdis : isDisabled call.disabledChannels key with
    | true =>
      simp only [visit, evaluateLocked, hdis, if_true]
      exact .rearm (fun h => absurd h.1 (by simp)) rfl rfl
    | false =>
      by_cases hfire : n.threshold ≤ countErrors (decayed n call.now state.outcomes)
      · have hnonempty : (decayed n call.now state.outcomes).isEmpty = false := by
          rw [isEmpty_eq_false_iff]
          intro hempty
          rw [hempty] at hfire
          exact absurd (hthreshold.trans hfire) (by decide)
        cases halerted : state.errorRule.alerted with
        | false =>
          simp only [visit, evaluateLocked, hdis, evaluateRuleLocked, if_neg (not_lt.mpr hfire),
            halerted, hnonempty, Bool.not_false, if_true, Bool.false_and,
            false_eq_true, if_false]
          cases call.sends key
          · exact .alert ⟨rfl, hfire⟩ halerted rfl rfl rfl
          · exact .alert ⟨rfl, hfire⟩ halerted rfl rfl rfl
        | true =>
          by_cases hdue :
            (decide (0 < n.remindInterval) &&
              decide (n.remindInterval ≤ call.now - state.errorRule.lastRemindAt)) = true
          · have hle : n.remindInterval ≤ call.now - state.errorRule.lastRemindAt := by
              simpa using ((and_eq_true _ _).mp hdue).2
            simp only [visit, evaluateLocked, hdis, evaluateRuleLocked, if_neg (not_lt.mpr hfire),
              halerted, hnonempty, hdue, Bool.not_true, if_true, Bool.false_and,
              false_eq_true, if_false]
            cases call.sends key
            · exact .remind ⟨rfl, hfire⟩ halerted rfl hle rfl rfl
            · exact .remind ⟨rfl, hfire⟩ halerted rfl hle rfl rfl
          · simp only [visit, evaluateLocked, hdis, evaluateRuleLocked, if_neg (not_lt.mpr hfire),
              halerted, hnonempty, hdue, Bool.not_true, Bool.false_and,
              false_eq_true, if_false]
            exact .quiet ⟨rfl, hfire⟩ halerted rfl halerted rfl
      · have hafter : (ruleOf (visit n call key (some state)).1).alerted = false ∧
            (visit n call key (some state)).2 =
            ⟨call.now, false, countErrors (decayed n call.now state.outcomes), none, false⟩ := by
          simp only [visit, evaluateLocked, hdis, evaluateRuleLocked, if_pos (not_le.mp hfire),
            false_eq_true, if_false]
          cases halerted : state.errorRule.alerted <;> simp [halerted, ruleOf, RuleState.zero] <;>
            split <;> simp [halerted]
        rw [hafter.2]
        exact .rearm (fun h => hfire h.2) rfl hafter.1

/-- A call, as one dimension sees it. -/
theorem process_episode (hthreshold : 1 ≤ n.threshold) (states : States) (call : Call)
    (key : Dimension) :
    Episode n (ruleOf (states key)) (ruleOf ((process n states call).1 key))
      ((process n states call).2 key) := by
  have hvisit := visit_episode n hthreshold call key
    (call.events.foldl (observeEvent n call.disabledChannels) states key)
  have hrule :
      (ruleOf (call.events.foldl (observeEvent n call.disabledChannels) states key)).alerted =
        (ruleOf (states key)).alerted ∧
      (ruleOf (call.events.foldl (observeEvent n call.disabledChannels) states key)).lastRemindAt =
        (ruleOf (states key)).lastRemindAt := by
    rw [observeAll_apply]
    split
    · exact ⟨rfl, rfl⟩
    · exact ruleOf_foldl n _ _
  cases hvisit with
  | rearm h hmessage hafter => exact .rearm h hmessage hafter
  | alert h hbefore hmessage hafter hlast =>
    exact .alert h (hrule.1 ▸ hbefore) hmessage hafter hlast
  | remind h hbefore hmessage hdue hafter hlast =>
    rw [hrule.2] at hdue hlast
    exact .remind h (hrule.1 ▸ hbefore) hmessage hdue hafter hlast
  | quiet h hbefore hmessage hafter hlast =>
    exact .quiet h (hrule.1 ▸ hbefore) hmessage hafter (hlast.trans hrule.2)

end Call

/-! ### Runs -/

section Runs
variable {n : Notifier} {key : Dimension}

theorem now_process (states : States) (call : Call) :
    ((process n states call).2 key).now = call.now := by
  simp only [process, visit]
  split
  · rfl
  · split
    · rfl
    · split <;> rfl

/-- An alerted dimension stays so while it keeps firing, and its last message is no older than it
was. -/
theorem alerted_persists (hthreshold : 1 ≤ n.threshold) (calls : List Call) (states : States)
    {since : Time} (hclock : ∀ c ∈ calls, since ≤ c.now)
    (hfiring : ∀ v ∈ visits n states calls, (v key).firing n)
    (halerted : (ruleOf (states key)).alerted = true)
    (hlast : since ≤ (ruleOf (states key)).lastRemindAt) :
    (ruleOf (statesAfter n states calls key)).alerted = true ∧
      since ≤ (ruleOf (statesAfter n states calls key)).lastRemindAt := by
  induction calls generalizing states with
  | nil => exact ⟨halerted, hlast⟩
  | cons call calls ih =>
    have hnow : since ≤ ((process n states call).2 key).now := (now_process states call).symm ▸
      hclock call mem_cons_self
    have hnext : (ruleOf ((process n states call).1 key)).alerted = true ∧
        since ≤ (ruleOf ((process n states call).1 key)).lastRemindAt := by
      cases process_episode n hthreshold states call key with
      | rearm h _ _ => exact absurd (hfiring _ mem_cons_self) h
      | alert _ hbefore _ _ _ => exact absurd (hbefore.symm.trans halerted) false_ne_true
      | remind _ _ _ _ hafter hlast' =>
        refine ⟨hafter, ?_⟩
        rw [hlast']
        split
        · exact hnow
        · exact hlast
      | quiet _ _ _ hafter hlast' => exact ⟨hafter, hlast'.symm ▸ hlast⟩
    exact ih _ (fun c hc => hclock c (mem_cons_of_mem _ hc))
      (fun v hv => hfiring v (mem_cons_of_mem _ hv)) hnext.1 hnext.2

/-- An alert that was not sent is tried again by every call while the dimension keeps firing. -/
theorem unsent_retried (hthreshold : 1 ≤ n.threshold) (calls : List Call) (states : States)
    (hfiring : ∀ v ∈ visits n states calls, (v key).firing n)
    (hunsent : ∀ v ∈ visits n states calls, (v key).sent = false)
    (halerted : (ruleOf (states key)).alerted = false) :
    (ruleOf (statesAfter n states calls key)).alerted = false ∧ ∀ v ∈ visits n states calls,
      (v key).message = some .alert := by
  induction calls generalizing states with
  | nil => exact ⟨halerted, nofun⟩
  | cons call calls ih =>
    obtain ⟨hmessage, hnext⟩ := (process_episode n hthreshold states call key).of_unalerted
      (hfiring _ mem_cons_self) halerted
    obtain ⟨hafter, hmessages⟩ := ih _ (fun v hv => hfiring v (mem_cons_of_mem _ hv))
      (fun v hv => hunsent v (mem_cons_of_mem _ hv))
      (hnext.trans (hunsent _ mem_cons_self))
    refine ⟨hafter, ?_⟩
    intro v hv
    rcases mem_cons.mp hv with rfl | hv
    · exact hmessage
    · exact hmessages v hv

/-- A message that was sent leaves the dimension alerted, at the time of the call. -/
theorem alerted_of_sent (hthreshold : 1 ≤ n.threshold) (states : States) (call : Call)
    (hmessage : ((process n states call).2 key).message ≠ none)
    (hsent : ((process n states call).2 key).sent = true) :
    (ruleOf ((process n states call).1 key)).alerted = true ∧
      (ruleOf ((process n states call).1 key)).lastRemindAt = call.now := by
  have hnow : ((process n states call).2 key).now = call.now := now_process states call
  cases process_episode n hthreshold states call key with
  | rearm _ hnone _ => exact absurd hnone hmessage
  | alert _ _ _ hafter hlast => exact ⟨hafter.trans hsent, hlast.trans hnow⟩
  | remind _ _ _ _ hafter hlast => exact ⟨hafter, by rw [hlast, hsent, if_pos rfl, hnow]⟩
  | quiet _ _ hnone _ _ => exact absurd hnone hmessage

/-! ### Windows -/

/-- The outcomes of the events that count for a dimension, over some calls. -/
def outcomesOf (n : Notifier) (key : Dimension) (calls : List Call) : List Outcome :=
  calls.flatMap fun call => (call.events.filter (belongs n key)).map Event.outcome

theorem windowOf_foldl (events : List Event) (state : Option DimensionState)
    (hlen : (windowOf state).length ≤ n.window) :
    windowOf (events.foldl (observed n) state) <:+ windowOf state ++ events.map Event.outcome ∧
      (windowOf (events.foldl (observed n) state)).length ≤ n.window := by
  induction events generalizing state with
  | nil => exact ⟨by rw [map_nil, append_nil]; exact suffix_rfl, hlen⟩
  | cons event events ih =>
    have hwindow := windowOf_observed n state event
    have hlen' : (windowOf (observed n state event)).length ≤ n.window := by
      rw [hwindow, length_drop]
      omega
    obtain ⟨hsuffix, hbound⟩ := ih (observed n state event) hlen'
    refine ⟨hsuffix.trans ?_, hbound⟩
    obtain ⟨dropped, hdrop⟩ := drop_suffix ((windowOf state ++ [event.outcome]).length - n.window)
      (windowOf state ++ [event.outcome])
    rw [map_cons, append_cons, hwindow]
    exact ⟨dropped, by rw [← append_assoc, hdrop]⟩

theorem windowOf_evaluate (disabledChannels : Int → Bool) (now : Time) (state : DimensionState) :
    windowOf (evaluateLocked n disabledChannels now key state).1 =
      if isDisabled disabledChannels key then [] else decayed n now state.outcomes := by
  rw [evaluateLocked]
  split
  · rfl
  · -- a state that is deleted has an empty window
    show windowOf (if (decayed n now state.outcomes).isEmpty && _ then none else some _) = _
    split
    · rename_i hdeleted
      have hempty := ((and_eq_true _ _).mp hdeleted).1
      exact (isEmpty_iff.mp hempty).symm
    · rfl

theorem windowOf_sendFailed (message : PendingMessage) (state : Option DimensionState) :
    windowOf (state.map (sendFailed message)) = windowOf state := by
  cases state with
  | none => rfl
  | some state =>
    obtain ⟨kind, _⟩ := message
    cases kind <;> rfl

/-- Evaluation only takes entries out of a window. -/
theorem windowOf_visit (call : Call) (state : Option DimensionState) :
    windowOf (visit n call key state).1 = if isDisabled call.disabledChannels key then []
      else decayed n call.now (windowOf state) := by
  cases state with
  | none => simp [visit, windowOf, decayed]
  | some state =>
    refine Eq.trans ?_ (windowOf_evaluate call.disabledChannels call.now state)
    simp only [visit]
    split
    · rfl
    · split
      · rfl
      · exact windowOf_sendFailed _ _

theorem decayed_sublist (now : Time) (outcomes : List Outcome) :
    (decayed n now outcomes).Sublist outcomes := by
  rw [decayed]
  split
  · exact filter_sublist
  · exact List.Sublist.refl _

/-- If no entry is dropped behind one that is kept, the window loses its front. -/
theorem decayed_suffix (now : Time) {outcomes : List Outcome}
    (h : 0 < n.windowMaxAge →
      outcomes.Pairwise fun a b => now - n.windowMaxAge < a.time → now - n.windowMaxAge < b.time) :
    decayed n now outcomes <:+ outcomes := by
  rw [decayed]
  split
  · rename_i hpos
    exact ⟨_, filter_not_append_filter ((h hpos).imp fun hkept => by simpa using hkept)⟩
  · exact suffix_rfl

/-- What a call leaves in a window. -/
theorem windowOf_process (states : States) (call : Call) :
    windowOf ((process n states call).1 key) =
      if isDisabled call.disabledChannels key then []
        else decayed n call.now
          (windowOf ((call.events.filter (belongs n key)).foldl (observed n) (states key))) := by
  show windowOf
    (visit n call key (call.events.foldl (observeEvent n call.disabledChannels) states key)).1 = _
  rw [windowOf_visit, observeAll_apply]
  cases isDisabled call.disabledChannels key <;> rfl

/-- A call only takes entries out of what its events have made of the window. -/
theorem windowOf_process_sublist (n : Notifier) (key : Dimension) (states : States) (call : Call) :
    (windowOf ((process n states call).1 key)).Sublist
      (windowOf ((call.events.filter (belongs n key)).foldl (observed n) (states key))) := by
  rw [windowOf_process]
  split
  · exact nil_sublist _
  · exact decayed_sublist _ _

/-- A window has room for so many entries, and they are those of different events. -/
theorem window_sublist (calls : List Call) (states : States) (before : List Outcome)
    (hlen : (windowOf (states key)).length ≤ n.window)
    (hsub : (windowOf (states key)).Sublist before) :
    (windowOf (statesAfter n states calls key)).Sublist (before ++ outcomesOf n key calls) ∧
      (windowOf (statesAfter n states calls key)).length ≤ n.window := by
  induction calls generalizing states before with
  | nil => exact ⟨by rw [outcomesOf, flatMap_nil, append_nil]; exact hsub, hlen⟩
  | cons call calls ih =>
    obtain ⟨hsuffix, hbound⟩ := windowOf_foldl (n := n) (call.events.filter (belongs n key))
      (states key) hlen
    have hnext := windowOf_process_sublist n key states call
    have hrest := ih (process n states call).1 (before ++
      (call.events.filter (belongs n key)).map Event.outcome) (hnext.length_le.trans hbound)
      (hnext.trans (hsuffix.sublist.trans (hsub.append_right _)))
    rw [append_assoc] at hrest
    exact hrest

/-- No call drops an entry as too old that stands behind one it keeps. -/
def FromFront (n : Notifier) (key : Dimension) : States → List Call → Prop
  | _, [] => True
  | states, call :: calls =>
    (0 < n.windowMaxAge → isDisabled call.disabledChannels key = false →
      (windowOf (call.events.foldl (observeEvent n call.disabledChannels) states key)).Pairwise
        fun a b => call.now - n.windowMaxAge < a.time → call.now - n.windowMaxAge < b.time) ∧
      FromFront n key (process n states call).1 calls

/-- A call that drops from the front leaves an end of what it found. -/
theorem windowOf_process_suffix (states : States) (call : Call) (calls : List Call)
    (h : FromFront n key states (call :: calls)) :
    windowOf ((process n states call).1 key) <:+
      windowOf ((call.events.filter (belongs n key)).foldl (observed n) (states key)) := by
  rw [windowOf_process]
  split
  · exact nil_suffix
  · rename_i henabled
    refine decayed_suffix _ fun hpos => ?_
    have hordered := h.1 hpos (eq_false_iff.mpr henabled)
    rwa [observeAll_apply, if_neg henabled] at hordered

/-- A window that loses its front only is the end of what came. -/
theorem window_suffix (calls : List Call) (states : States) (before : List Outcome)
    (hlen : (windowOf (states key)).length ≤ n.window) (hsuffix : windowOf (states key) <:+ before)
    (hfront : FromFront n key states calls) :
    windowOf (statesAfter n states calls key) <:+ before ++ outcomesOf n key calls := by
  induction calls generalizing states before with
  | nil => rw [outcomesOf, flatMap_nil, append_nil]; exact hsuffix
  | cons call calls ih =>
    obtain ⟨hobserved, hbound⟩ :=
      windowOf_foldl (n := n) (call.events.filter (belongs n key)) (states key) hlen
    obtain ⟨front, rfl⟩ := hsuffix
    have hnext := windowOf_process_suffix states call calls hfront
    have hrest := ih _ (front ++ windowOf (states key) ++
      (call.events.filter (belongs n key)).map Event.outcome)
      (hnext.length_le.trans hbound)
      (hnext.trans (hobserved.trans ⟨front, (append_assoc ..).symm⟩)) hfront.2
    rw [append_assoc] at hrest
    exact hrest

/-- Entries in the order of their times are dropped from the front. -/
theorem fromFront_of_sorted (calls : List Call) (states : States) (before : List Outcome)
    (hlen : (windowOf (states key)).length ≤ n.window)
    (hsub : (windowOf (states key)).Sublist before)
    (hsorted : (before ++ outcomesOf n key calls).Pairwise fun a b => a.time ≤ b.time) :
    FromFront n key states calls := by
  induction calls generalizing states before with
  | nil => trivial
  | cons call calls ih =>
    rw [outcomesOf, flatMap_cons, ← append_assoc] at hsorted
    obtain ⟨hobserved, hbound⟩ :=
      windowOf_foldl (n := n) (call.events.filter (belongs n key)) (states key) hlen
    have hcame := hobserved.sublist.trans (hsub.append_right _)
    have hleft := windowOf_process_sublist n key states call
    refine ⟨fun _ henabled => ?_, ih _ _ (hleft.length_le.trans hbound) (hleft.trans hcame) hsorted⟩
    rw [observeAll_apply, henabled, if_neg Bool.false_ne_true]
    exact ((pairwise_append.mp hsorted).1.sublist hcame).imp fun hle hkept => hkept.trans_le hle

/-- The errors that a call counts are those it leaves in the window. -/
theorem errors_process (n : Notifier) (key : Dimension) (states : States) (call : Call) :
    ((process n states call).2 key).disabled = isDisabled call.disabledChannels key ∧
      (isDisabled call.disabledChannels key = false → ((process n states call).2 key).errors =
        countErrors (windowOf ((process n states call).1 key))) := by
  have hvisit : ∀ state : Option DimensionState, (visit n call key state).2.disabled =
      isDisabled call.disabledChannels key ∧
      (visit n call key state).2.errors = countErrors (decayed n call.now (windowOf state)) := by
    intro state
    cases state with
    | none => simp [visit, windowOf, decayed, countErrors]
    | some state =>
      simp only [visit]
      split
      · exact ⟨rfl, rfl⟩
      · split <;> exact ⟨rfl, rfl⟩
  refine ⟨(hvisit _).1, ?_⟩
  intro henabled
  rw [windowOf_process, henabled, if_neg Bool.false_ne_true]
  refine (hvisit _).2.trans ?_
  rw [observeAll_apply, henabled, if_neg Bool.false_ne_true]

end Runs

/-- The notifier as it is made. -/
def noStates : States := fun _ => none

/-- Alerts follow episodes. A call after some others, more calls, and one call more:
between two alerts that were sent the dimension was re-armed; a dimension that fires is
marked, or its alert failed and is tried again; a reminder keeps its distance from every
message of its episode; and a window holds outcomes of different events, no more than it has
room for. If entries are dropped from its front only, they are among the last so many of the
dimension. -/
theorem alerts_follow_episodes (n : Notifier) (hthreshold : 1 ≤ n.threshold) (key : Dimension)
    (before : List Call) (call : Call) (between : List Call) (call' : Call)
    (hclock : (before ++ call :: (between ++ [call'])).Pairwise fun a b => a.now ≤ b.now) :
    let first := process n (statesAfter n noStates before) call
    let visits := visits n first.1 between
    let last := process n (statesAfter n first.1 between) call'
    let outcomes := outcomesOf n key (before ++ [call])
    ((first.2 key).message = some .alert → (first.2 key).sent = true →
      (last.2 key).message = some .alert → (last.2 key).sent = true →
      ∃ v ∈ visits, (v key).errors < n.threshold ∨ (v key).disabled = true) ∧
    (isDisabled call.disabledChannels key = false →
      n.threshold ≤ countErrors (windowOf (first.1 key)) →
      (ruleOf (first.1 key)).alerted = true ∨
        ((first.2 key).message = some .alert ∧ (first.2 key).sent = false)) ∧
    ((first.2 key).message = some .alert → (first.2 key).sent = false →
      (∀ v ∈ visits, (v key).firing n ∧ (v key).sent = false) → (last.2 key).firing n →
      (∀ v ∈ visits, (v key).message = some .alert) ∧ (last.2 key).message = some .alert) ∧
    ((first.2 key).message ≠ none → (first.2 key).sent = true → (∀ v ∈ visits, (v key).firing n) →
      (last.2 key).message = some .remind → (last.2 key).sent = true →
      n.remindInterval ≤ call'.now - call.now) ∧
    (windowOf (first.1 key)).Sublist outcomes ∧ (windowOf (first.1 key)).length ≤ n.window ∧
    (FromFront n key noStates (before ++ [call]) →
      (windowOf (first.1 key)).Sublist (outcomes.drop (outcomes.length - n.window))) := by
  intro first visits last outcomes
  have hafter : ∀ c ∈ between, call.now ≤ c.now := fun c hc =>
    (pairwise_cons.mp (pairwise_append.mp hclock).2.1).1 c (mem_append_left _ hc)
  have hfirst := process_episode n hthreshold (statesAfter n noStates before) call key
  have hlast := process_episode n hthreshold (statesAfter n first.1 between) call' key
  have hstates : statesAfter n noStates (before ++ [call]) = first.1 := by
    rw [statesAfter, foldl_append]
    rfl
  obtain ⟨hsub, hlen⟩ := window_sublist (before ++ [call]) noStates [] (Nat.zero_le _)
    (List.Sublist.refl _)
  rw [hstates, nil_append] at hsub
  rw [hstates] at hlen
  refine ⟨?_, ?_, ?_, ?_, hsub, hlen, ?_⟩
  · intro hmessage hsent hmessage' _
    by_contra hnone
    have hfiring : ∀ v ∈ visits, (v key).firing n := by
      intro v hv
      have hv' := not_or.mp fun h => hnone ⟨v, hv, h⟩
      exact ⟨by simpa using hv'.2, not_lt.mp hv'.1⟩
    obtain ⟨halerted, htime⟩ := alerted_of_sent hthreshold (statesAfter n noStates before) call
      (by rw [hmessage]; nofun) hsent
    obtain ⟨hstill, _⟩ := alerted_persists hthreshold between first.1 hafter hfiring halerted
      (le_of_eq htime.symm)
    exact absurd (((hlast.of_message hmessage').1 rfl).1.symm.trans hstill) false_ne_true
  · intro henabled hcount
    obtain ⟨hdisabled, herrors⟩ := errors_process n key (statesAfter n noStates before) call
    have hfiring : (first.2 key).firing n := ⟨hdisabled.trans henabled,
      (herrors henabled).symm ▸ hcount⟩
    cases hfirst with
    | rearm h _ _ => exact absurd hfiring h
    | alert _ _ hmessage halerted _ =>
      cases hsent : (first.2 key).sent with
      | true => exact Or.inl (halerted.trans hsent)
      | false => exact Or.inr ⟨hmessage, rfl⟩
    | remind _ _ _ _ halerted _ => exact Or.inl halerted
    | quiet _ _ _ halerted _ => exact Or.inl halerted
  · intro hmessage hsent hbetween hfiring
    have hfailed := ((hfirst.of_message hmessage).1 rfl).2.trans hsent
    obtain ⟨hstill, hmessages⟩ := unsent_retried hthreshold between first.1
      (fun v hv => (hbetween v hv).1) (fun v hv => (hbetween v hv).2) hfailed
    exact ⟨hmessages, (hlast.of_unalerted hfiring hstill).1⟩
  · intro hmessage hsent hfiring hmessage' _
    obtain ⟨halerted, htime⟩ := alerted_of_sent hthreshold (statesAfter n noStates before)
      call hmessage hsent
    obtain ⟨_, hsince⟩ := alerted_persists hthreshold between first.1 hafter hfiring halerted
      (le_of_eq htime.symm)
    have hdue := (hlast.of_message hmessage').2 rfl
    rw [now_process] at hdue
    simp only [Time] at *
    omega
  · intro hfront
    have hsuffix := window_suffix (before ++ [call]) noStates [] (Nat.zero_le _) suffix_rfl hfront
    rw [hstates, nil_append] at hsuffix
    refine (suffix_of_suffix_length_le hsuffix (drop_suffix _ _) ?_).sublist
    have hle : (windowOf (first.1 key)).length ≤ outcomes.length := hsuffix.length_le
    show _ ≤ (outcomes.drop (outcomes.length - n.window)).length
    rw [length_drop]
    omega

/-! ### Times that go back -/

/-- A window of two and a threshold of two; entries of ten minutes are too old. -/
def twoOfTwo : Notifier := ⟨2, 2, 600000000000, 0, fun _ => false⟩

/-- A call without disabled channels, all of whose messages are sent. -/
def plainCall (now : Time) (events : List Event) : Call :=
  ⟨events, now, fun _ => false, fun _ => true⟩

/-- A request of channel 7 at a time. -/
def request (isError : Bool) (time : Time) : Event := ⟨7, 0, isError, 0, time, time⟩

/-- Two failures, the later one reported first. -/
def outOfOrder : Call :=
  plainCall 2000000000000 [request true 2000000000000, request true 1999000000000]

/-- Two failures, twenty minutes of silence, two failures. The times of the first two go
back, but nothing is dropped behind what is kept. -/
theorem alerts_follow_episodes_twice :
    (∃ v ∈ visits twoOfTwo (process twoOfTwo noStates outOfOrder).1 [plainCall 3200000000000 []],
      (v (.channel 7)).errors < 2 ∨ (v (.channel 7)).disabled = true) ∧
    (windowOf ((process twoOfTwo noStates outOfOrder).1 (.channel 7))).Sublist
      [⟨true, 2000000000000⟩, ⟨true, 1999000000000⟩] := by
  obtain ⟨hbetween, _, _, _, _, _, hlast⟩ :=
    alerts_follow_episodes twoOfTwo (by decide)
      (.channel 7) [] outOfOrder [plainCall 3200000000000 []]
      (plainCall 3201000000000 [request true 3201000000000, request true 3201000000000])
      (by simp [plainCall, outOfOrder])
  exact ⟨hbetween (by decide) (by decide) (by decide) (by decide),
    hlast ⟨fun _ _ => by decide, trivial⟩⟩

/-- The first failure is the last but two, and it counts: the success after it was too old
when it came. -/
theorem window_counts_older :
    let calls := [plainCall 2000000000000 [request true 2000000000000, request false 800000000000],
      plainCall 2001000000000 [request true 2001000000000]]
    let outcomes := outcomesOf twoOfTwo (.channel 7) calls
    windowOf (statesAfter twoOfTwo noStates calls (.channel 7)) =
        [⟨true, 2000000000000⟩, ⟨true, 2001000000000⟩] ∧
      outcomes.drop (outcomes.length - twoOfTwo.window) =
        [⟨false, 800000000000⟩, ⟨true, 2001000000000⟩] ∧
      (visits twoOfTwo noStates calls).map (fun v => (v (.channel 7)).message) =
        [none, some .alert] ∧
      ¬(windowOf (statesAfter twoOfTwo noStates calls (.channel 7))).Sublist
        (outcomes.drop (outcomes.length - twoOfTwo.window)) := by
  decide

end ControlTower.ErrorAlert
