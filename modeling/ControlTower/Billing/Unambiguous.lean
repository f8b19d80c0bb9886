import ControlTower.Billing.Discounts

/-! No request finds two rules.

Two rules of one key that the overlap test keeps apart share no instant, as long as
both begin before the day that the test takes for the end of an open rule
(`DiscountRule.disjoint_of_not_overlaps`). Every write of the store keeps all rules
apart in the sense of the test, so the one condition left is on the requests: a rule
that begins on the last day itself passes the test against every open rule. -/
namespace ControlTower.Billing
open Go Data List Table StatementDiscount

namespace DiscountRule

def holdsAt (r : DiscountRule) (t : Time) : Prop := r.statement.holdsAt t = true

/-- The columns that a type of rule does not use are empty. -/
def WellKeyed (r : DiscountRule) : Prop :=
  (r.discountType = .upstreamChannel → r.modelName = "") ∧ (r.discountType = .userModel → r.channelId = 0)

theorem overlaps_comm (r s : DiscountRule) : r.overlaps s = s.overlaps r := Bool.and_comm _ _

theorem lt_till {r : DiscountRule} {t u : Time} (h : r.holdsAt t) (hu : u ≤ t) (hl : u < lastDay) :
    u < r.till := by
  have ht := (holdsAt_iff.mp h).2
  cases he : r.effectiveTo with
  | none => simpa [till, he] using hl
  | some till =>
    simp only [DiscountRule.till, he, Option.getD_some]
    exact Int.lt_of_le_of_lt hu (ht till he)

/-- **The test is right for rules that begin before the last day.** -/
theorem disjoint_of_not_overlaps {r s : DiscountRule} (hr : r.effectiveFrom < lastDay)
    (hs : s.effectiveFrom < lastDay) (h : r.overlaps s = false) (t : Time) : ¬(r.holdsAt t ∧ s.holdsAt t) := by
  rintro ⟨hrt, hst⟩
  have hfr : r.effectiveFrom < s.till := lt_till hst (holdsAt_iff.mp hrt).1 hr
  have hfs : s.effectiveFrom < r.till := lt_till hrt (holdsAt_iff.mp hst).1 hs
  simp [overlaps, hfr, hfs] at h

end DiscountRule

/-! ### Rules kept apart -/

/-- What the writes keep of the table of rules. -/
structure Apart (rules : Table DiscountRule.id) : Prop where
  early : ∀ r ∈ rules, r.effectiveFrom < lastDay
  keyed : ∀ r ∈ rules, r.WellKeyed
  apart : ∀ r ∈ rules, ∀ s ∈ rules, r.id ≠ s.id → r.key = s.key → r.overlaps s = false

namespace Apart
variable {rules : Table DiscountRule.id}

theorem empty : Apart Table.empty := ⟨nofun, nofun, nofun⟩

theorem keep (h : Apart rules) (p : DiscountRule → Bool) : Apart (rules.keep p) where
  early r hr := h.early r (mem_keep.mp hr).1
  keyed r hr := h.keyed r (mem_keep.mp hr).1
  apart r hr s hs := h.apart r (mem_keep.mp hr).1 s (mem_keep.mp hs).1

/-- One rule written, new or in the place of the one with its id. -/
theorem put (h : Apart rules) {v : DiscountRule} (hearly : v.effectiveFrom < lastDay) (hkeyed : v.WellKeyed)
    (hv : ∀ r ∈ rules, r.id ≠ v.id → r.key = v.key → r.overlaps v = false) : Apart (rules.put v) where
  early r hr := by
    rcases mem_put.mp hr with rfl | ⟨hr, -⟩
    · exact hearly
    · exact h.early r hr
  keyed r hr := by
    rcases mem_put.mp hr with rfl | ⟨hr, -⟩
    · exact hkeyed
    · exact h.keyed r hr
  apart r hr s hs hid hkey := by
    rcases mem_put.mp hr with hrv | ⟨hr, hrid⟩ <;> rcases mem_put.mp hs with hsv | ⟨hs, hsid⟩
    · exact absurd (hrv.trans hsv.symm ▸ rfl) hid
    · rw [DiscountRule.overlaps_comm, hrv]
      exact hv s hs hsid (hkey.symm.trans (congrArg _ hrv))
    · rw [hsv]
      exact hv r hr hrid (hkey.trans (congrArg _ hsv))
    · exact h.apart r hr s hs hid hkey

/-- Any two rules are equal or share no instant. -/
theorem disjoint (h : Apart rules) {r s : DiscountRule} (hr : r ∈ rules) (hs : s ∈ rules) (hne : r ≠ s)
    (hkey : r.key = s.key) (t : Time) : ¬(r.holdsAt t ∧ s.holdsAt t) := by
  have hid : r.id ≠ s.id := fun hid => hne (eq_of_key hr hs hid)
  exact DiscountRule.disjoint_of_not_overlaps (h.early r hr) (h.early s hs) (h.apart r hr s hs hid hkey) t

end Apart

namespace DiscountStore
variable {s t : DiscountStore}

variable (h : Apart s.rules)
include h

theorem insert_apart {v : DiscountRule} (hearly : v.effectiveFrom < lastDay)
    (hkeyed : v.WellKeyed) (hv : ∀ r ∈ s.rules, r.key = v.key → r.overlaps v = false) :
    Apart (s.insert v).rules :=
  h.put hearly hkeyed fun r hr _ => hv r hr

/-- Several rules written one after the other. -/
theorem inserts_apart {vs : List DiscountRule} (hvs : ∀ v ∈ vs, v.effectiveFrom < lastDay ∧ v.WellKeyed)
    (hold : ∀ v ∈ vs, ∀ r ∈ s.rules, r.key = v.key → r.overlaps v = false)
    (hnew : vs.Pairwise fun v w => v.key = w.key → v.overlaps w = false) :
    Apart (vs.foldl insert s).rules := by
  induction vs generalizing s with
  | nil => exact h
  | cons v vs ih =>
    rw [pairwise_cons] at hnew
    have hv := hvs v mem_cons_self
    refine ih (insert_apart h hv.1 hv.2 (hold v mem_cons_self))
      (fun w hw => hvs w (mem_cons_of_mem v hw)) (fun w hw r hr hkey => ?_) hnew.2
    rcases mem_put.mp hr with rfl | ⟨hr, -⟩
    · exact hnew.1 w hw hkey
    · exact hold w (mem_cons_of_mem v hw) r hr hkey

/-! ### A merge -/

omit h in
theorem bound_length_le_one (s : DiscountStore) (site : String) (upstream channel : Int) :
    (s.bound site upstream channel).length ≤ 1 := by
  refine length_keep_le_one (t := s.bindings) fun a _ b _ ha hb => ?_
  simp only [Bool.and_eq_true, beq_iff_eq] at ha hb
  simp [Binding.key, ha, hb]

variable {site : String} {id target : Int}

omit h in
theorem mem_copies {v : DiscountRule} :
    v ∈ s.copies site id target ↔ ∃ r ∈ s.rules, (r.instanceId = site ∧ r.discountType = .upstreamChannel ∧
      r.subjectId = id) ∧ s.bound site id r.channelId ≠ [] ∧ v = { r with subjectId := target } := by
  simp only [copies, mem_flatMap, mem_def]
  refine exists_congr fun r => and_congr_right fun _ => ?_
  split
  · rename_i hr
    simp only [hr, mem_map, true_and, and_true]
    constructor
    · rintro ⟨b, hb, rfl⟩
      exact ⟨ne_nil_of_mem hb, rfl⟩
    · rintro ⟨hb, rfl⟩
      obtain ⟨b, hb⟩ := exists_mem_of_ne_nil _ hb
      exact ⟨b, hb, rfl⟩
  · rename_i hr
    simp [hr]

/-- The copies keep the distances of the rules they are copies of. -/
theorem copies_pairwise :
    (s.copies site id target).Pairwise fun v w => v.key = w.key → v.overlaps w = false := by
  rw [copies, pairwise_flatMap]
  constructor
  · intro r _
    split
    · have hl := s.bound_length_le_one site id r.channelId
      generalize s.bound site id r.channelId = bs at hl
      match bs with
      | [] => simp
      | [b] => simp
      | b :: c :: rest => simp at hl
    · simp
  · refine List.Pairwise.imp_of_mem ?_ (pairwise_map.mp s.rules.unique)
    intro r r' hr hr' hid v hv w hw hkey
    split at hv
    · rename_i hcond
      split at hw
      · rename_i hcond'
        obtain ⟨-, -, rfl⟩ := mem_map.mp hv
        obtain ⟨-, -, rfl⟩ := mem_map.mp hw
        refine h.apart r hr r' hr' hid ?_
        simp only [DiscountRule.key, Prod.mk.injEq] at hkey ⊢
        exact ⟨hkey.1, hkey.2.1, hcond.2.2.trans hcond'.2.2.symm, hkey.2.2.2.1, hkey.2.2.2.2⟩
      · simp at hw
    · simp at hv

theorem transfer_apart (ht : s.transfer site id target = .ok t) : Apart t.rules := by
  simp only [transfer, bind_eq_ok, refuse_eq_ok, pure_eq_ok] at ht
  obtain ⟨-, hov, rfl⟩ := ht
  refine inserts_apart h (fun v hv => ?_) (fun v hv r hr hkey => ?_) (copies_pairwise h)
  · obtain ⟨r, hr, -, -, rfl⟩ := mem_copies.mp hv
    exact ⟨h.early r hr, h.keyed r hr⟩
  · obtain ⟨a, ha, hcond, hb, rfl⟩ := mem_copies.mp hv
    simp only [mergeOverlaps, any_eq_false, Bool.not_eq_true] at hov
    have hno := hov a ha r hr
    simp only [DiscountRule.key, Prod.mk.injEq] at hkey
    rw [DiscountRule.overlaps_comm]
    show a.overlaps r = false
    simpa [hcond, hb, hkey] using hno

/-! ### Every request keeps the rules apart -/

theorem put_apart {v : DiscountRule} (hearly : column v.effectiveFrom < lastDay)
    (hkeyed : v.WellKeyed) (hput : s.putBillingDiscountRule v = .ok t) : Apart t.rules := by
  simp only [putBillingDiscountRule, bind_eq_ok, refuse_eq_ok] at hput
  obtain ⟨-, -, -, -, -, hov, hput⟩ := hput
  have hapart : ∀ r ∈ s.rules, r.id ≠ v.id → r.key = v.key → r.overlaps v.stored = false := by
    intro r hr hid hkey
    have hno := any_eq_false.mp hov r hr
    have hkey' : r.key = v.stored.key := hkey
    have hid' : r.id ≠ v.stored.id := hid
    simpa [hkey', hid'] using hno
  split at hput
  · rename_i hzero
    simp only [pure_eq_ok] at hput
    subst hput
    refine insert_apart h hearly hkeyed fun r hr => hapart r hr fun hid => ?_
    have hpos := (s.fresh r hr).1
    rw [hid, show v.id = 0 from hzero] at hpos
    exact absurd hpos (Int.lt_irrefl 0)
  · split at hput
    · cases hput
    · rename_i old hfind
      split at hput
      · rename_i hkey
        simp only [pure_eq_ok] at hput
        subst hput
        obtain ⟨hold, hid⟩ := find_eq_some.mp hfind
        refine h.put hearly (h.keyed old hold) fun r hr hrid hrkey => ?_
        exact hapart r hr (fun hv => hrid (hv.trans hid.symm)) (hrkey.trans hkey)
      · cases hput

theorem remove_apart {revision targetRevision : Int} {busy history : Bool}
    (hr : s.removeBillingUpstream site id revision target targetRevision busy history = .ok t) :
    Apart t.rules := by
  simp only [removeBillingUpstream, bind_eq_ok, refuse_eq_ok, found_eq_ok] at hr
  obtain ⟨-, -, -, -, -, -, -, -, -, -, -, -, moved, hmoved, hr⟩ := hr
  have hm : Apart moved.rules := by
    cases hl : s.live site target with
    | none =>
      rw [hl] at hmoved
      cases hmoved
      exact h
    | some dest =>
      rw [hl] at hmoved
      exact transfer_apart h hmoved
  split at hr <;> cases hr <;> exact hm

end DiscountStore

/-- What the handler lets through uses the columns of its type only. -/
theorem DiscountRequest.checked_spec {v : DiscountRequest} {post : Bool} {r : DiscountRule}
    (h : v.checked post = .ok r) : r.effectiveFrom = v.effectiveFrom ∧ r.WellKeyed := by
  simp only [checked, bind_eq_ok, refuse_eq_ok, found_eq_ok, pure_eq_ok] at h
  obtain ⟨d, -, -, -, discountType, -, -, -, -, -, -, -, -, -, rfl⟩ := h
  exact ⟨rfl, fun hu => if_pos hu, fun hu => if_pos hu⟩

/-- The rule of the request begins, to the microsecond, before the last day that the
overlap test knows. -/
def DiscountAction.Early : DiscountAction → Prop
  | .put v _ => column v.effectiveFrom < lastDay
  | _ => True

namespace DiscountStore
variable {s : DiscountStore}

theorem apply_apart {t : DiscountStore} {a : DiscountAction} (h : Apart s.rules) (ha : a.Early)
    (happ : s.apply a = .ok t) : Apart t.rules := by
  cases a with
  | put v post =>
    simp only [apply, bind_eq_ok] at happ
    obtain ⟨r, hchecked, hput⟩ := happ
    obtain ⟨hfrom, hkeyed⟩ := DiscountRequest.checked_spec hchecked
    exact put_apart h (hfrom ▸ ha) hkeyed hput
  | delete site id =>
    simp only [apply, deleteBillingDiscountRule, bind_eq_ok, pure_eq_ok] at happ
    obtain ⟨-, -, rfl⟩ := happ
    exact h.keep _
  | remove site id revision target targetRevision busy history => exact remove_apart h happ
  | configure upstreams bindings =>
    cases happ
    exact h

theorem step_apart {a : DiscountAction} (h : Apart s.rules) (ha : a.Early) : Apart (s.step a).rules := by
  unfold step
  cases happ : s.apply a with
  | error e => exact h
  | ok t => exact apply_apart h ha happ

theorem run_apart {actions : List DiscountAction} (h : Apart s.rules) (ha : ∀ a ∈ actions, a.Early) :
    Apart (s.run actions).rules := by
  induction actions generalizing s with
  | nil => exact h
  | cons a actions ih =>
    exact ih (step_apart h (ha a mem_cons_self)) fun b hb => ha b (mem_cons_of_mem a hb)

/-! ### At most one rule applies -/

section
variable {log : PagedLogRecord} {kind : StatementKind} {subjectId : Int}

/-- Two rules that apply to one request have one key and share its instant. -/
theorem applies_eq (h : Apart s.rules) (hkind : kind ≠ .other) {r r' : DiscountRule} (hr : r ∈ s.rules)
    (hr' : r' ∈ s.rules) (hsite : r.instanceId = r'.instanceId)
    (ha : r.statement.applies log kind subjectId = true) (ha' : r'.statement.applies log kind subjectId = true) :
    r = r' := by
  by_contra hne
  have hkey : r.key = r'.key → False := fun hkey =>
    h.disjoint hr hr' hne hkey log.at
      ⟨by simp_all [StatementDiscount.applies, DiscountRule.holdsAt],
        by simp_all [StatementDiscount.applies, DiscountRule.holdsAt]⟩
  refine hkey ?_
  obtain ⟨hmodel, hchannel⟩ := h.keyed r hr
  obtain ⟨hmodel', hchannel'⟩ := h.keyed r' hr'
  cases kind with
  | other => exact absurd rfl hkind
  | userStatement =>
    simp [StatementDiscount.applies, DiscountRule.statement] at ha ha'
    simp [DiscountRule.key, hsite, ha, ha', hchannel, hchannel']
  | upstreamStatement =>
    simp [StatementDiscount.applies, DiscountRule.statement] at ha ha'
    simp [DiscountRule.key, hsite, ha, ha', hmodel, hmodel']

variable (log subjectId) in
theorem applying_length (h : Apart s.rules) (hkind : kind ≠ .other) (site : String) :
    (applying log kind subjectId (s.statements site)).length ≤ 1 := by
  have hle := length_keep_le_one (t := s.rules)
    (p := fun r => r.statement.applies log kind subjectId && r.instanceId == site) (by
      intro r hr r' hr' hp hp'
      simp only [Bool.and_eq_true, beq_iff_eq] at hp hp'
      rw [applies_eq h hkind hr hr' (hp.2.trans hp'.2.symm) hp.1 hp'.1])
  have heq : applying log kind subjectId (s.statements site) =
      (s.rules.keep fun r => r.statement.applies log kind subjectId && r.instanceId == site).rows.map
        DiscountRule.statement := by
    simp only [applying, statements, Table.keep, filter_map, filter_filter]
    rfl
  rw [heq, length_map]
  exact hle

end

/-- **Settlement is never ambiguous**, in every run whose rules begin before the last
day: rules of one key share no instant, and what a request settles at depends on
neither an overlap nor the order of the rules. -/
theorem settlement_unambiguous (upstreams : Table Upstream.id) (bindings : Table Binding.key)
    (actions : List DiscountAction) (h : ∀ a ∈ actions, a.Early) :
    let s := (start upstreams bindings).run actions
    (∀ r ∈ s.rules, ∀ r' ∈ s.rules, r ≠ r' → r.key = r'.key → ∀ t, ¬(r.holdsAt t ∧ r'.holdsAt t)) ∧
      ∀ (log : PagedLogRecord) (kind : StatementKind) (subjectId : Int) (quotaPerUnit site : String)
        (rules rules' : List StatementDiscount), kind ≠ .other →
        rules.Perm (s.statements site) → rules'.Perm (s.statements site) →
        (∀ order, resolveSettlement log kind subjectId rules quotaPerUnit ≠ .error (.overlappingRules order)) ∧
          resolveSettlement log kind subjectId rules quotaPerUnit =
            resolveSettlement log kind subjectId rules' quotaPerUnit := by
  intro s
  have hs : Apart s.rules := run_apart Apart.empty h
  refine ⟨fun r hr r' hr' hne hkey t => hs.disjoint hr hr' hne hkey t, ?_⟩
  intro log kind subjectId quotaPerUnit site rules rules' hkind hp hp'
  have hstored := applying_length log subjectId hs hkind site
  -- An order of the rules changes the order of those that apply, and there is at most one.
  have hone : ∀ {l : List StatementDiscount}, l.Perm (s.statements site) →
      applying log kind subjectId l = applying log kind subjectId (s.statements site) := by
    intro l hl
    have hf : (applying log kind subjectId l).Perm (applying log kind subjectId (s.statements site)) :=
      hl.filter _
    generalize applying log kind subjectId (s.statements site) = found at hf hstored
    match found with
    | [] => exact hf.eq_nil
    | [r] => exact perm_singleton.mp hf
    | r :: r' :: rest => simp at hstored
  have hmatch : ∀ {l : List StatementDiscount}, l.Perm (s.statements site) →
      matchRules log kind subjectId none l =
        .ok (applying log kind subjectId (s.statements site)).head? := by
    intro l hl
    rw [matchRules_eq (by rw [hone hl]; exact hstored), hone hl]
  exact ⟨resolveSettlement_ne_overlapping (hmatch hp),
    resolveSettlement_congr ((hmatch hp).trans (hmatch hp').symm)⟩

/-- A request for half price on one model of one user. -/
def halfPrice (effectiveFrom : Time) (effectiveTo : Option Time) : DiscountAction :=
  .put { id := 0, instanceId := "site", discountType := some .userModel, subjectId := 7, channelId := 0,
         modelName := "m", discount := "0.5", effectiveFrom := effectiveFrom, effectiveTo := effectiveTo } true

/-- Two rules of one key, the second from the instant on at which the first ends. -/
theorem settlement_unambiguous_consecutive :
    let s := (start Table.empty Table.empty).run
      [halfPrice 1767225600000000000 (some 1782864000000000000), halfPrice 1782864000000000000 none]
    s.rules.rows.length = 2 ∧
      ∀ r ∈ s.rules, ∀ r' ∈ s.rules, r ≠ r' → r.key = r'.key → ∀ t, ¬(r.holdsAt t ∧ r'.holdsAt t) :=
  ⟨by decide +kernel, (settlement_unambiguous Table.empty Table.empty _ (by
    simp [halfPrice, DiscountAction.Early, column, lastDay])).1⟩

/-- A rule without an end, and then one that begins on the last day: the test lets the
second one in, and a request of that day finds both. -/
theorem last_day_overlaps :
    let s := (start Table.empty Table.empty).run [halfPrice 1767225600000000000 none, halfPrice lastDay none]
    (∃ r ∈ s.rules, ∃ r' ∈ s.rules, r ≠ r' ∧ r.key = r'.key ∧ r.holdsAt lastDay ∧ r'.holdsAt lastDay) ∧
      resolveSettlement { id := 1, createdUnix := 253402214400, channelId := 3, modelName := "m", quota := 10,
                          quotaBeforeDiscount := "", userModelDiscount := "" }
        .userStatement 7 (s.statements "site") "500000" = .error (.overlappingRules 1) := by
  refine ⟨⟨⟨1, "site", .userModel, 7, 0, "m", "0.500000", 1767225600000000000, none⟩,
    mem_def.mpr (by decide +kernel), ⟨2, "site", .userModel, 7, 0, "m", "0.500000", lastDay, none⟩,
    mem_def.mpr (by decide +kernel), by decide, rfl, ?_, ?_⟩, by decide +kernel⟩
  · simp [DiscountRule.holdsAt, StatementDiscount.holdsAt, DiscountRule.statement, lastDay]
  · simp [DiscountRule.holdsAt, StatementDiscount.holdsAt, DiscountRule.statement, lastDay]

end DiscountStore

end ControlTower.Billing
