import ControlTower.Billing.Pages
import Mathlib.Algebra.BigOperators.Pi
import Mathlib.Algebra.Order.BigOperators.Group.List
import Mathlib.Algebra.Order.Ring.Int

/-! A verification reads the logs of a bill again and compares.

The bill has its charged requests in the compact table, by day, user and model among
others, and its anomalies as orders. The verification counts the logs by day, user,
model and group. The verdict joins the three by day, user, model and group, with the
empty group for every row of the compact table. -/
namespace ControlTower.Billing
open Go Data List Function Tally LogRecord

/-- A step of a job with the pages that it reads. Its range lies in one day,
as `NewJob` cuts it. -/
structure StepPages where
  start : Time
  pages : List (List LogRecord)
  within : ∀ page ∈ pages, ∀ log ∈ page, businessDay log.at = businessDay start

def logsOf (steps : List StepPages) : List LogRecord := steps.flatMap fun s => s.pages.flatten

/-! ### The bill -/

structure Billed (γ : Type) where
  compact : CompactTotals γ
  anomalies : Table AnomalyOrder.sourceLogId

/-- A site-wide bill of a usage version without settlement, which takes in every log. -/
def Terms.siteWide (usageVersion : Nat) (maxContext : String → Int) (charge : LogRecord → Option Charge) : Terms where
  usageVersion := usageVersion
  zeroOutputPeriod := false
  excludeZeroOutput := false
  upstreamModels := fun _ => []
  maxContext := maxContext
  charge := charge

/-- A row of `billing_anomaly_orders`; of one that is there, only the columns named by
`ON DUPLICATE KEY UPDATE` change. -/
def insertAnomaly (t : Table AnomalyOrder.sourceLogId) (o : AnomalyOrder) : Table AnomalyOrder.sourceLogId :=
  match t.find o.sourceLogId with
  | some old => t.put { old with reasons := o.reasons }
  | none => t.put o

/-! ### The count -/

inductive VerifyColumn
  | sourceRows
  | normalRows
  | abnormalRows
  | sourceQuota
  | normalQuota
  | abnormalQuota
  deriving DecidableEq, Repr

structure VerificationKey (name : Type) where
  day : Int
  userId : Int
  model : name
  group : name
  deriving DecidableEq

abbrev Hourly (name : Type) := Tally (VerificationKey name) (VerifyColumn → Int)

/-- What one log adds to the row of its user, model and group. -/
def verificationRow (maxContext : String → Int) (log : LogRecord) : VerifyColumn → Int :=
  let normal := (anomalyReasons log (maxContext log.modelName)).isEmpty
  fun
  | .sourceRows => 1
  | .sourceQuota => log.quota
  | .normalRows => if normal then 1 else 0
  | .normalQuota => if normal then log.quota else 0
  | .abnormalRows => if normal then 0 else 1
  | .abnormalQuota => if normal then 0 else log.quota

/-! ### The verdict -/

inductive ResultColumn
  | sourceRows
  | verifiedNormalRows
  | billedNormalRows
  | verifiedAbnormalRows
  | billedAbnormalRows
  | sourceQuota
  | verifiedNormalQuota
  | billedNormalQuota
  | verifiedAbnormalQuota
  | billedAbnormalQuota
  deriving DecidableEq, Repr

inductive VerificationStatus
  | matched
  | mismatch
  deriving DecidableEq, Repr

structure VerificationResult (name : Type) where
  key : VerificationKey name
  columns : ResultColumn → Int
  status : VerificationStatus

inductive AbnormalColumn
  | rows
  | quota
  deriving DecidableEq, Repr

/-- The condition of the verdict's `IF`. -/
def verdict (r : ResultColumn → Int) : VerificationStatus :=
  if r .verifiedNormalRows = r .billedNormalRows ∧ r .verifiedNormalQuota = r .billedNormalQuota ∧
    r .verifiedAbnormalRows = r .billedAbnormalRows ∧ r .verifiedAbnormalQuota = r .billedAbnormalQuota ∧
    r .sourceRows = r .verifiedNormalRows + r .verifiedAbnormalRows ∧
    r .sourceQuota = r .verifiedNormalQuota + r .verifiedAbnormalQuota then .matched
  else .mismatch

section
variable {γ : Type} [DecidableEq γ] (collate : String → γ)

/-- `AppendBillingHour`. -/
def Billed.appendBillingHour (b : Billed γ) (rows : PageRows) : Billed γ where
  compact := appendCompact collate b.compact rows.requestDetails
  anomalies := rows.anomalies.foldl insertAnomaly b.anomalies

/-- The pages of a bill, one after the other; `none` when a charge is refused. -/
def generate (terms : Terms) (steps : List StepPages) : Option (Billed γ) :=
  (steps.flatMap (·.pages)).foldlM
    (fun b page => (terms.page page).map (b.appendBillingHour collate)) ⟨Table.empty, Table.empty⟩

variable (maxContext : String → Int)

/-- `AppendBillingVerificationPage`: the page counted by the very names, then added
to the rows of the day on which the step starts. -/
def appendVerificationPage (start : Time) (t : Hourly γ) (page : List LogRecord) :
    Hourly γ :=
  let acc : Tally (Int × String × String) (VerifyColumn → Int) :=
    Tally.of (page.map fun log => ((log.userId, log.modelName, log.groupName), verificationRow maxContext log))
  t.addAll (acc.rows.map fun e => (⟨businessDay start, e.1.1, collate e.1.2.1, collate e.1.2.2⟩, e.2))

def verify (steps : List StepPages) : Hourly γ :=
  steps.foldl (fun t s => s.pages.foldl (appendVerificationPage collate maxContext s.start) t) Table.empty

/-- The rows of the compact table by day, user and model, in the empty group. -/
def billedNormal (t : CompactTotals γ) : Tally (VerificationKey γ) (CompactColumn → Int) :=
  t.groupBy fun k => ⟨k.day, k.userId, k.model, collate ""⟩

def AnomalyOrder.key (o : AnomalyOrder) : VerificationKey γ :=
  ⟨businessDay o.createdAt, o.userId, collate o.modelName, collate o.groupName⟩

def AnomalyOrder.value (o : AnomalyOrder) : AbnormalColumn → Int
  | .rows => 1
  | .quota => o.quota

def billedAbnormal (t : Table AnomalyOrder.sourceLogId) : Tally (VerificationKey γ) (AbnormalColumn → Int) :=
  Tally.of (t.rows.map fun o => (o.key collate, o.value))

/-- The joined row of a key, with zero for what is missing. -/
def resultColumns (v : Hourly γ) (b : Billed γ) (k : VerificationKey γ) : ResultColumn → Int
  | .sourceRows => v.value k .sourceRows
  | .verifiedNormalRows => v.value k .normalRows
  | .billedNormalRows => (billedNormal collate b.compact).value k .requestCount
  | .verifiedAbnormalRows => v.value k .abnormalRows
  | .billedAbnormalRows => (billedAbnormal collate b.anomalies).value k .rows
  | .sourceQuota => v.value k .sourceQuota
  | .verifiedNormalQuota => v.value k .normalQuota
  | .billedNormalQuota => (billedNormal collate b.compact).value k .calculatedQuota
  | .verifiedAbnormalQuota => v.value k .abnormalQuota
  | .billedAbnormalQuota => (billedAbnormal collate b.anomalies).value k .quota

/-- The keys of the three sides, each once. -/
def resultKeys (v : Hourly γ) (b : Billed γ) : List (VerificationKey γ) :=
  (v.keys ++ (billedNormal collate b.compact).keys ++ (billedAbnormal collate b.anomalies).keys).dedup

def finalizeBillingVerification (v : Hourly γ) (b : Billed γ) : List (VerificationResult γ) :=
  (resultKeys collate v b).map fun k =>
    let columns := resultColumns collate v b k
    ⟨k, columns, verdict columns⟩

/-! ### What the three sides hold -/

/-- The key under which a log is verified. -/
def LogRecord.verificationKey (log : LogRecord) : VerificationKey γ :=
  ⟨businessDay log.at, log.userId, collate log.modelName, collate log.groupName⟩

/-- The key under which a charged log is compared. -/
def LogRecord.billedKey (log : LogRecord) : VerificationKey γ :=
  ⟨businessDay log.at, log.userId, collate log.modelName, collate ""⟩

theorem sumOn_appendVerificationPage {start : Time} (t : Hourly γ) {page : List LogRecord}
    (hday : ∀ log ∈ page, businessDay log.at = businessDay start) (p : VerificationKey γ → Bool) :
    (appendVerificationPage collate maxContext start t page).sumOn p =
      t.sumOn p + (page.map fun log => if p (log.verificationKey collate) then verificationRow maxContext log else 0).sum := by
  rw [appendVerificationPage, sumOn_addAll, listed_rows_of _ fun k : Int × String × String =>
    (⟨businessDay start, k.1, collate k.2.1, collate k.2.2⟩ : VerificationKey γ)]
  simp only [Tally.listed, map_map, comp_def]
  congr 2
  refine map_congr_left fun log hlog => ?_
  rw [verificationKey, hday log hlog]

theorem sumOn_verify (steps : List StepPages) (p : VerificationKey γ → Bool) :
    (verify collate maxContext steps).sumOn p =
      ((logsOf steps).map fun log =>
        if p (log.verificationKey collate) then verificationRow maxContext log else 0).sum := by
  have hstep : ∀ s ∈ steps, ∀ t : Hourly γ,
      (s.pages.foldl (appendVerificationPage collate maxContext s.start) t).sumOn p =
        t.sumOn p + (s.pages.flatten.map fun log =>
          if p (log.verificationKey collate) then verificationRow maxContext log else 0).sum := by
    intro s _ t
    rw [foldl_measure (m := fun t : Hourly γ => t.sumOn p) fun page hpage t =>
      sumOn_appendVerificationPage collate maxContext t (s.within page hpage) p,
      map_flatten, sum_flatten, map_map]
    rfl
  rw [verify, foldl_measure (m := fun t : Hourly γ => t.sumOn p) hstep, logsOf, List.flatMap,
    map_flatten, sum_flatten, map_map, map_map]
  simp [Tally.sumOn, Table.total, Table.empty, comp_def]

theorem insertAnomaly_rows (orders : List AnomalyOrder) (t : Table AnomalyOrder.sourceLogId)
    (hn : (orders.map AnomalyOrder.sourceLogId).Nodup)
    (hnew : ∀ o ∈ orders, ∀ i ∈ t, i.sourceLogId ≠ o.sourceLogId) :
    (orders.foldl insertAnomaly t).rows = orders.reverse ++ t.rows := by
  induction orders generalizing t with
  | nil => rfl
  | cons o orders ih =>
    rw [map_cons, nodup_cons] at hn
    have hold := hnew o mem_cons_self
    have hrows : (insertAnomaly t o).rows = o :: t.rows := by
      simp only [insertAnomaly, Table.find_eq_none.mpr hold, Table.put]
      rw [filter_eq_self.mpr]
      intro i hi
      simpa using hold i hi
    rw [foldl_cons, ih _ hn.2, hrows]
    · simp
    · intro o' ho' i hi
      rw [Table.mem_def, hrows] at hi
      rcases mem_cons.mp hi with rfl | hi
      · intro h
        exact hn.1 (h ▸ mem_map_of_mem ho')
      · exact hnew o' (mem_cons_of_mem o ho') i hi

/-- What the pages of a bill leave in the store. -/
theorem generate_spec {terms : Terms} {steps : List StepPages} {b : Billed γ}
    (h : generate collate terms steps = some b) :
    (∀ p, b.compact.sumOn p = (((logsOf steps).filterMap terms.chargedAs).map fun d =>
      if p (d.key.collated collate) then d.value else 0).sum) ∧
    b.anomalies = ((logsOf steps).filterMap terms.anomalyOf).foldl insertAnomaly Table.empty ∧
    ∀ log ∈ logsOf steps, (terms.entry log).isSome := by
  have hfold : ∀ (pages : List (List LogRecord)) (start : Billed γ),
      pages.foldlM (fun b page => (terms.page page).map (b.appendBillingHour collate)) start = some b →
      (∀ p, b.compact.sumOn p = start.compact.sumOn p + ((pages.flatten.filterMap terms.chargedAs).map fun d =>
        if p (d.key.collated collate) then d.value else 0).sum) ∧
      b.anomalies = (pages.flatten.filterMap terms.anomalyOf).foldl insertAnomaly start.anomalies ∧
      ∀ log ∈ pages.flatten, (terms.entry log).isSome := by
    intro pages
    induction pages with
    | nil =>
      intro start h
      cases h
      simp
    | cons page pages ih =>
      intro start h
      cases hp : terms.page page with
      | none => simp [foldlM_cons, hp] at h
      | some rows =>
        obtain ⟨hd, ha, he⟩ := Terms.page_spec hp
        obtain ⟨h1, h2, h3⟩ := ih (start.appendBillingHour collate rows) (by simpa [foldlM_cons, hp] using h)
        refine ⟨?_, ?_, ?_⟩
        · intro p
          rw [h1 p, Billed.appendBillingHour, sumOn_appendCompact, hd, flatten_cons, filterMap_append,
            map_append, sum_append, add_assoc]
        · rw [h2, Billed.appendBillingHour, ha, flatten_cons, filterMap_append, foldl_append]
        · intro log hlog
          rcases mem_append.mp hlog with hlog | hlog
          · exact he log hlog
          · exact h3 log hlog
  have hflat : (steps.flatMap (·.pages)).flatten = logsOf steps := by
    simp [logsOf, List.flatMap, flatten_flatten, comp_def]
  have := hfold (steps.flatMap StepPages.pages) ⟨Table.empty, Table.empty⟩ h
  rw [hflat] at this
  simpa [Tally.sumOn, Table.total, Table.empty] using this

/-! ### Log by log -/

section
variable {usageVersion : Nat} {maxContext : String → Int} {charge : LogRecord → Option Charge}

/-- The log is none of the anomalies. -/
def LogRecord.normal (log : LogRecord) (maxContext : String → Int) : Bool :=
  (anomalyReasons log (maxContext log.modelName)).isEmpty

theorem chargedAs_siteWide (log : LogRecord) :
    (Terms.siteWide usageVersion maxContext charge).chargedAs log =
      if log.normal maxContext then (charge log).map (log.detail usageVersion) else none := by
  cases hc : charge log <;> cases hn : log.normal maxContext <;>
    simp_all [Terms.chargedAs, Terms.entry, Terms.siteWide, statementAnomalyReasons, normal]

theorem anomalyOf_siteWide {log : LogRecord}
    (h : ((Terms.siteWide usageVersion maxContext charge).entry log).isSome) :
    (Terms.siteWide usageVersion maxContext charge).anomalyOf log =
      if log.normal maxContext then none
      else some (log.anomaly (anomalyReasons log (maxContext log.modelName))) := by
  cases hc : charge log <;> cases hn : log.normal maxContext <;>
    simp_all [Terms.anomalyOf, Terms.entry, Terms.siteWide, statementAnomalyReasons, normal]

theorem charge_isSome {log : LogRecord} (h : ((Terms.siteWide usageVersion maxContext charge).entry log).isSome) :
    ∃ c, charge log = some c := by
  cases hc : charge log with
  | none => simp [Terms.entry, Terms.siteWide, hc] at h
  | some c => exact ⟨c, rfl⟩

theorem verified_sumOn (steps : List StepPages) (p : VerificationKey γ → Bool) (c : VerifyColumn) :
    (verify collate maxContext steps).sumOn p c =
      ((logsOf steps).map fun log =>
        if p (log.verificationKey collate) then verificationRow maxContext log c else 0).sum := by
  rw [sumOn_verify, Pi.list_sum_apply, map_map]
  congr 1
  refine map_congr_left fun log _ => ?_
  by_cases hk : p (log.verificationKey collate) <;> simp [hk]

theorem billedNormal_sumOn {steps : List StepPages} {b : Billed γ}
    (h : generate collate (.siteWide usageVersion maxContext charge) steps = some b) (p : VerificationKey γ → Bool)
    (c : CompactColumn) {w : LogRecord → Int}
    (hw : ∀ log ∈ logsOf steps, log.normal maxContext → ∀ ch, charge log = some ch →
      (log.detail usageVersion ch).value c = w log) :
    (billedNormal collate b.compact).sumOn p c =
      ((logsOf steps).map fun log =>
        if p (log.billedKey collate) ∧ log.normal maxContext then w log else 0).sum := by
  obtain ⟨hcompact, -, hsome⟩ := generate_spec collate h
  rw [billedNormal, sumOn_groupBy, hcompact, sum_filterMap, Pi.list_sum_apply, map_map]
  congr 1
  refine map_congr_left fun log hlog => ?_
  obtain ⟨ch, hch⟩ := charge_isSome (hsome log hlog)
  rw [comp_apply, chargedAs_siteWide]
  by_cases hn : log.normal maxContext
  · have hval := hw log hlog hn ch hch
    have hkey : (⟨((log.detail usageVersion ch).key.collated collate).day,
        ((log.detail usageVersion ch).key.collated collate).userId,
        ((log.detail usageVersion ch).key.collated collate).model, collate ""⟩ : VerificationKey γ) =
        log.billedKey collate := rfl
    simp only [hn, hch, if_true, Option.map_some, Option.elim_some, hkey, and_true]
    by_cases hk : p (log.billedKey collate) <;> simp [hk, hval]
  · simp [hn]

theorem billedAbnormal_sumOn {steps : List StepPages} {b : Billed γ}
    (h : generate collate (.siteWide usageVersion maxContext charge) steps = some b)
    (hids : ((logsOf steps).map fun log => log.id).Nodup) (p : VerificationKey γ → Bool) (c : AbnormalColumn) :
    (billedAbnormal collate b.anomalies).sumOn p c =
      ((logsOf steps).map fun log => if p (log.verificationKey collate) ∧ log.normal maxContext = false then
        (log.anomaly []).value c else 0).sum := by
  obtain ⟨-, hanomalies, hsome⟩ := generate_spec collate h
  have hof : (logsOf steps).filterMap (Terms.siteWide usageVersion maxContext charge).anomalyOf =
      ((logsOf steps).filter fun log => !log.normal maxContext).map fun log =>
        log.anomaly (anomalyReasons log (maxContext log.modelName)) := by
    rw [← filterMap_eq_map, ← filterMap_eq_filter, filterMap_filterMap]
    refine filterMap_congr fun log hlog => ?_
    rw [anomalyOf_siteWide (hsome log hlog)]
    cases hn : log.normal maxContext <;> simp [hn, Option.guard]
  have hrows : b.anomalies.rows =
      ((logsOf steps).filterMap (Terms.siteWide usageVersion maxContext charge).anomalyOf).reverse := by
    rw [hanomalies, insertAnomaly_rows]
    · simp [Table.empty]
    · rw [hof, map_map]
      exact hids.sublist (filter_sublist.map _)
    · intro o _ i hi
      cases hi
  rw [billedAbnormal, sumOn_of, Tally.listed, hrows, map_reverse, map_reverse, sum_reverse,
    map_map, sum_filterMap, Pi.list_sum_apply, map_map]
  congr 1
  refine map_congr_left fun log hlog => ?_
  rw [comp_apply, anomalyOf_siteWide (hsome log hlog)]
  have hkey : ∀ reasons, (log.anomaly reasons).key collate = log.verificationKey collate := fun _ => rfl
  cases hn : log.normal maxContext with
  | true => simp
  | false =>
    simp only [Bool.false_eq_true, if_false, Option.elim_some, comp_apply, hkey, and_true]
    by_cases hk : p (log.verificationKey collate)
    · rw [if_pos hk, if_pos hk]
      cases c <;> rfl
    · rw [if_neg hk, if_neg hk]
      rfl

/-! ### The verdict on a bill -/

/-- The columns over the keys of a condition: over one key they are its row, over all
keys the sums of all rows. -/
def columnsOver (v : Hourly γ) (b : Billed γ) (p : VerificationKey γ → Bool) : ResultColumn → Int
  | .sourceRows => v.sumOn p .sourceRows
  | .verifiedNormalRows => v.sumOn p .normalRows
  | .billedNormalRows => (billedNormal collate b.compact).sumOn p .requestCount
  | .verifiedAbnormalRows => v.sumOn p .abnormalRows
  | .billedAbnormalRows => (billedAbnormal collate b.anomalies).sumOn p .rows
  | .sourceQuota => v.sumOn p .sourceQuota
  | .verifiedNormalQuota => v.sumOn p .normalQuota
  | .billedNormalQuota => (billedNormal collate b.compact).sumOn p .calculatedQuota
  | .verifiedAbnormalQuota => v.sumOn p .abnormalQuota
  | .billedAbnormalQuota => (billedAbnormal collate b.anomalies).sumOn p .quota

theorem resultColumns_eq_sumOn (v : Hourly γ) (b : Billed γ) (k : VerificationKey γ) (c : ResultColumn) :
    resultColumns collate v b k c = columnsOver collate v b (fun i => decide (i = k)) c := by
  cases c <;> simp only [resultColumns, columnsOver, value_eq_sumOn]

theorem sum_value_apply {κ ρ : Type} [DecidableEq κ] (t : Tally κ (ρ → Int)) {ks : List κ} (hn : ks.Nodup)
    (h : ∀ k ∈ t.keys, k ∈ ks) (c : ρ) : (ks.map fun k => t.value k c).sum = t.sumOn (fun _ => true) c := by
  rw [← sum_value t hn h, Pi.list_sum_apply, map_map]
  rfl

/-- The sums over all rows of a verdict. -/
theorem sum_results (v : Hourly γ) (b : Billed γ) (c : ResultColumn) :
    ((finalizeBillingVerification collate v b).map fun r => r.columns c).sum =
      columnsOver collate v b (fun _ => true) c := by
  have hn : (resultKeys collate v b).Nodup := nodup_dedup _
  have hv := sum_value_apply v hn fun k hk => by simp [resultKeys, hk]
  have hb := sum_value_apply (billedNormal collate b.compact) hn fun k hk => by simp [resultKeys, hk]
  have ha := sum_value_apply (billedAbnormal collate b.anomalies) hn fun k hk => by simp [resultKeys, hk]
  rw [finalizeBillingVerification, map_map]
  cases c
  all_goals first | exact hv _ | exact hb _ | exact ha _

/-- What a log adds to the columns. -/
def LogRecord.share (log : LogRecord) (maxContext : String → Int) (p : VerificationKey γ → Bool) :
    ResultColumn → Int :=
  let normal := log.normal maxContext
  let verified := p (log.verificationKey collate)
  let billed := p (log.billedKey collate)
  fun
  | .sourceRows => if verified then 1 else 0
  | .verifiedNormalRows => if verified ∧ normal then 1 else 0
  | .billedNormalRows => if billed ∧ normal then 1 else 0
  | .verifiedAbnormalRows | .billedAbnormalRows => if verified ∧ normal = false then 1 else 0
  | .sourceQuota => if verified then log.quota else 0
  | .verifiedNormalQuota => if verified ∧ normal then log.quota else 0
  | .billedNormalQuota => if billed ∧ normal then log.quota else 0
  | .verifiedAbnormalQuota | .billedAbnormalQuota => if verified ∧ normal = false then log.quota else 0

/-- The column of the verdict that shows a column of the count. -/
def VerifyColumn.shown : VerifyColumn → ResultColumn
  | .sourceRows => .sourceRows
  | .normalRows => .verifiedNormalRows
  | .abnormalRows => .verifiedAbnormalRows
  | .sourceQuota => .sourceQuota
  | .normalQuota => .verifiedNormalQuota
  | .abnormalQuota => .verifiedAbnormalQuota

omit [DecidableEq γ] in
theorem LogRecord.verified_share (log : LogRecord) (c : VerifyColumn) {p : VerificationKey γ → Bool} :
    (if p (log.verificationKey collate) then verificationRow maxContext log c else 0) =
      log.share collate maxContext p c.shown := by
  by_cases hk : p (log.verificationKey collate) <;> cases hn : (anomalyReasons log (maxContext log.modelName)).isEmpty <;>
    cases c <;> simp [hk, hn, verificationRow, share, normal, VerifyColumn.shown]

/-- **The columns, log by log.** -/
theorem columnsOver_eq {generated verified : List StepPages} {b : Billed γ}
    (h : generate collate (.siteWide usageVersion maxContext charge) generated = some b)
    (hids : ((logsOf generated).map fun log => log.id).Nodup)
    (hsame : (logsOf verified).Perm (logsOf generated))
    (hquota : ∀ log ∈ logsOf generated, log.normal maxContext → ∀ c, charge log = some c →
      c.calculatedQuota = log.quota)
    (p : VerificationKey γ → Bool) (c : ResultColumn) :
    columnsOver collate (verify collate maxContext verified) b p c =
      ((logsOf generated).map fun log => log.share collate maxContext p c).sum := by
  have hv : ∀ c : VerifyColumn, (verify collate maxContext verified).sumOn p c =
      ((logsOf generated).map fun log => log.share collate maxContext p c.shown).sum := by
    intro c
    rw [verified_sumOn, (hsame.map _).sum_eq, map_congr_left fun log _ => log.verified_share collate c]
  have hn := billedNormal_sumOn collate h p
  have ha := billedAbnormal_sumOn collate h hids p
  cases c with
  | sourceRows => exact hv .sourceRows
  | sourceQuota => exact hv .sourceQuota
  | verifiedNormalRows => exact hv .normalRows
  | verifiedNormalQuota => exact hv .normalQuota
  | verifiedAbnormalRows => exact hv .abnormalRows
  | verifiedAbnormalQuota => exact hv .abnormalQuota
  | billedNormalRows => exact hn .requestCount fun _ _ _ _ _ => rfl
  | billedNormalQuota => exact hn .calculatedQuota hquota
  | billedAbnormalRows => exact ha .rows
  | billedAbnormalQuota => exact ha .quota

omit [DecidableEq γ] in
/-- Over any keys the source is what is normal and what is not. -/
theorem LogRecord.share_split (log : LogRecord) (maxContext : String → Int) (p : VerificationKey γ → Bool) :
    log.share collate maxContext p .sourceRows =
      log.share collate maxContext p .verifiedNormalRows + log.share collate maxContext p .verifiedAbnormalRows ∧
    log.share collate maxContext p .sourceQuota =
      log.share collate maxContext p .verifiedNormalQuota + log.share collate maxContext p .verifiedAbnormalQuota := by
  by_cases hk : p (log.verificationKey collate) <;> cases hn : log.normal maxContext <;>
    simp [hk, hn, share]

/-- The logs themselves: how many, and their quota, by what they are. -/
def LogRecord.expected (log : LogRecord) (maxContext : String → Int) : ResultColumn → Int :=
  let normal := log.normal maxContext
  fun
  | .sourceRows => 1
  | .sourceQuota => log.quota
  | .verifiedNormalRows | .billedNormalRows => if normal then 1 else 0
  | .verifiedNormalQuota | .billedNormalQuota => if normal then log.quota else 0
  | .verifiedAbnormalRows | .billedAbnormalRows => if normal then 0 else 1
  | .verifiedAbnormalQuota | .billedAbnormalQuota => if normal then 0 else log.quota

omit [DecidableEq γ] in
theorem LogRecord.share_all (log : LogRecord) (c : ResultColumn) :
    log.share collate maxContext (fun _ => true) c = log.expected maxContext c := by
  cases c <;> cases hn : log.normal maxContext <;> simp [hn, share, expected]

section
variable {generated verified : List StepPages} {b : Billed γ}
  (h : generate collate (.siteWide usageVersion maxContext charge) generated = some b)
  (hids : ((logsOf generated).map fun log => log.id).Nodup)
  (hsame : (logsOf verified).Perm (logsOf generated))
  (hquota : ∀ log ∈ logsOf generated, log.normal maxContext → ∀ c, charge log = some c → c.calculatedQuota = log.quota)
include h hids hsame hquota

/-- A verdict on logs that are charged in the empty group. -/
theorem verdict_matched (hgroup : ∀ log ∈ logsOf generated, log.normal maxContext → collate log.groupName = collate "")
    (k : VerificationKey γ) : verdict (resultColumns collate (verify collate maxContext verified) b k) = .matched := by
  have hcol := columnsOver_eq collate h hids hsame hquota fun i => decide (i = k)
  have hkey : ∀ log ∈ logsOf generated, log.normal maxContext →
      log.billedKey collate = log.verificationKey collate := by
    intro log hlog hn
    rw [billedKey, verificationKey, hgroup log hlog hn]
  have hsplit := fun log : LogRecord => log.share_split collate maxContext fun i => decide (i = k)
  rw [verdict, if_pos]
  simp only [resultColumns_eq_sumOn, hcol]
  refine ⟨?_, ?_, rfl, rfl, ?_, ?_⟩
  · congr 1
    refine map_congr_left fun log hlog => ?_
    by_cases hn : log.normal maxContext
    · simp [share, hkey log hlog hn]
    · simp [share, hn]
  · congr 1
    refine map_congr_left fun log hlog => ?_
    by_cases hn : log.normal maxContext
    · simp [share, hkey log hlog hn]
    · simp [share, hn]
  · rw [← sum_map_add, map_congr_left fun log _ => (hsplit log).1]
  · rw [← sum_map_add, map_congr_left fun log _ => (hsplit log).2]

/-- A charged log of another group is nowhere in the bill's side of its row. -/
theorem verdict_mismatch {log : LogRecord} (hlog : log ∈ logsOf generated) (hn : log.normal maxContext)
    (hgroup : collate log.groupName ≠ collate "") :
    ∃ r ∈ finalizeBillingVerification collate (verify collate maxContext verified) b, r.status = .mismatch := by
  let k : VerificationKey γ := log.verificationKey collate
  have hcol := columnsOver_eq collate h hids hsame hquota fun i => decide (i = k)
  have hverified : 1 ≤ resultColumns collate (verify collate maxContext verified) b k .verifiedNormalRows := by
    rw [resultColumns_eq_sumOn, hcol]
    have hone : log.share collate maxContext (fun i => decide (i = k)) .verifiedNormalRows = 1 := by
      simp [share, hn, k]
    refine hone ▸ single_le_sum ?_ _ (mem_map_of_mem hlog)
    intro x hx
    obtain ⟨l, -, rfl⟩ := mem_map.mp hx
    simp only [share]
    split <;> omega
  have hbilled : resultColumns collate (verify collate maxContext verified) b k .billedNormalRows = 0 := by
    rw [resultColumns_eq_sumOn, hcol]
    refine sum_eq_zero fun x hx => ?_
    obtain ⟨l, -, rfl⟩ := mem_map.mp hx
    have hne : ¬ l.billedKey collate = k := fun heq => hgroup (congrArg VerificationKey.group heq).symm
    simp [share, hne]
  have hmem : k ∈ resultKeys collate (verify collate maxContext verified) b := by
    have : k ∈ (verify collate maxContext verified).keys := by
      apply mem_keys_of_value_ne
      intro hzero
      have : resultColumns collate (verify collate maxContext verified) b k .verifiedNormalRows = 0 := by
        rw [resultColumns, hzero]
        rfl
      omega
    simp [resultKeys, this]
  refine ⟨_, mem_map_of_mem hmem, ?_⟩
  show verdict _ = .mismatch
  rw [verdict, if_neg]
  intro hall
  omega

/-- **A verification accepts the bill of the same logs if and only if every charged log
has the empty group.** -/
theorem verification_accepts_iff :
    ((∀ r ∈ finalizeBillingVerification collate (verify collate maxContext verified) b, r.status = .matched) ∧
      ∀ c, ((finalizeBillingVerification collate (verify collate maxContext verified) b).map fun r => r.columns c).sum =
        ((logsOf generated).map fun log => log.expected maxContext c).sum) ↔
    ∀ log ∈ logsOf generated, log.normal maxContext → collate log.groupName = collate "" := by
  constructor
  · intro hall log hlog hn
    by_contra hgroup
    obtain ⟨r, hr, hstatus⟩ := verdict_mismatch collate h hids hsame hquota hlog hn hgroup
    rw [hall.1 r hr] at hstatus
    cases hstatus
  · intro hgroup
    constructor
    · intro r hr
      obtain ⟨k, -, rfl⟩ := mem_map.mp hr
      exact verdict_matched collate h hids hsame hquota hgroup k
    · intro c
      rw [sum_results, columnsOver_eq collate h hids hsame hquota,
        map_congr_left fun log _ => log.share_all collate c]

end

/-- A log of one request, in a group. -/
def sampleLog (group : String) : LogRecord where
  id := 1
  createdUnix := 0
  channelId := 3
  modelName := "m"
  quota := 7
  quotaBeforeDiscount := ""
  userModelDiscount := ""
  userId := 5
  tokenId := 6
  groupName := group
  promptTokens := some 10
  completionTokens := some 20
  cacheTokens := 0
  cacheWriteTokens := 0
  cacheWrite5mTokens := 0
  cacheWrite1hTokens := 0
  imageInputTokens := 0
  imageOutputTokens := 0
  audioInputTokens := 0
  audioOutputTokens := 0

def sampleSteps (group : String) : List StepPages :=
  [⟨0, [[sampleLog group]], by simp [sampleLog, PagedLogRecord.at]⟩]

/-- What was charged is what was logged. -/
def asLogged (log : LogRecord) : Option Charge := some ⟨log.quota, none⟩

end

end

/-- Two days, the first read in two pages. Its last log has no output, and is in a group. -/
def twoDays : List StepPages :=
  [⟨0, [[sampleLog ""], [{sampleLog "" with id := 2}, {sampleLog "vip" with id := 3, completionTokens := none}]],
      by decide⟩,
    ⟨86400000000000, [[{sampleLog "" with id := 4, createdUnix := 86400}]], by decide⟩]

/-- The bill of two days, verified in the other order of its steps. -/
theorem verification_accepts_twoDays :
    ∃ b, generate id (.siteWide 2 (fun _ => 0) asLogged) twoDays = some b ∧ b.anomalies.rows.length = 1 ∧
      ∀ r ∈ finalizeBillingVerification id (verify id (fun _ => 0) twoDays.reverse) b, r.status = .matched := by
  obtain ⟨b, hb⟩ : ∃ b, generate id (.siteWide 2 (fun _ => 0) asLogged) twoDays = some b := ⟨_, rfl⟩
  have hanomalies : (generate id (.siteWide 2 (fun _ => 0) asLogged) twoDays).map (·.anomalies.rows.length) = some 1 := by
    decide +kernel
  rw [hb] at hanomalies
  refine ⟨b, hb, Option.some.inj hanomalies, ((verification_accepts_iff id hb ?_ ?_ ?_).mpr ?_).1⟩
  · decide
  · exact (reverse_perm _).flatMap_right _
  · intro log _ _ c hc
    cases hc
    rfl
  · decide

/-- The bill of one request in the group `default`, verified against itself. -/
theorem verification_rejects_group :
    ∃ b, generate id (.siteWide 2 (fun _ => 0) asLogged) (sampleSteps "default") = some b ∧
      (∀ log ∈ logsOf (sampleSteps "default"), ∀ c, asLogged log = some c → c.calculatedQuota = log.quota) ∧
      ∃ r ∈ finalizeBillingVerification id (verify id (fun _ => 0) (sampleSteps "default")) b,
        r.status = .mismatch := by
  refine ⟨_, rfl, ?_, ?_⟩
  · intro log _ c hc
    cases hc
    rfl
  · decide +kernel

end ControlTower.Billing
