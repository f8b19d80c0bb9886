import ControlTower.Billing.TierStatistics
import ControlTower.Data.Sorting
import Mathlib.Algebra.Order.Monoid.Unbundled.WithTop
import Mathlib.Data.Prod.Lex
import Mathlib.Data.String.Basic

/-! Tier statistics do not depend on the way they were added up.

A request brings a share: its counts, its amount, the amount before the discount and its
prices. Shares form a commutative semigroup, and an accumulator is the gathering of the
shares of its requests. Rows can be added to another accumulator because a row is the
share of its group. -/
namespace ControlTower.Billing
open Go Data List SettledDetail TierStatisticsAccumulator UnitPrices

/-- What a request, or a group of requests, adds to the statistics of its key. -/
structure TierShare where
  requests : Int
  input : Int
  output : Int
  cacheRead : Int
  cacheWrite : Int
  multimediaUsage : MultimediaUsage
  amount : places 12
  before : {s : String // IsBefore s}
  prices : {p : Finset String // p.Nonempty}

namespace TierShare

instance : Add TierShare where
  add s t :=
    { requests := s.requests + t.requests
      input := s.input + t.input
      output := s.output + t.output
      cacheRead := s.cacheRead + t.cacheRead
      cacheWrite := s.cacheWrite + t.cacheWrite
      multimediaUsage := s.multimediaUsage.add t.multimediaUsage
      amount := s.amount + t.amount
      before := ⟨mergeBefore s.before.1 t.before.1, isBefore_mergeBefore s.before.2 t.before.2⟩
      prices := ⟨s.prices.1 ∪ t.prices.1, s.prices.2.mono Finset.subset_union_left⟩ }

theorem add_def (s t : TierShare) : s + t =
    { requests := s.requests + t.requests
      input := s.input + t.input
      output := s.output + t.output
      cacheRead := s.cacheRead + t.cacheRead
      cacheWrite := s.cacheWrite + t.cacheWrite
      multimediaUsage := s.multimediaUsage.add t.multimediaUsage
      amount := s.amount + t.amount
      before := ⟨mergeBefore s.before.1 t.before.1, isBefore_mergeBefore s.before.2 t.before.2⟩
      prices := ⟨s.prices.1 ∪ t.prices.1, s.prices.2.mono Finset.subset_union_left⟩ } := rfl

/-- Shares can be added in any order and grouping. -/
instance : AddCommSemigroup TierShare where
  add_assoc s t u := by
    simp only [add_def, add_assoc, MultimediaUsage.add, Finset.union_assoc, mergeBefore_assoc s.before.2 t.before.2 u.before.2]
  add_comm s t := by
    simp only [add_def, TierShare.mk.injEq, Subtype.mk.injEq, MultimediaUsage.add, MultimediaUsage.mk.injEq]
    refine ⟨add_comm _ _, add_comm _ _, add_comm _ _, add_comm _ _, add_comm _ _, ⟨add_comm _ _, add_comm _ _, add_comm _ _, add_comm _ _⟩,
      add_comm _ _, mergeBefore_comm _ _, Finset.union_comm _ _⟩

/-- The row of a key and a share. -/
def row (k : TierStatisticsKey) (s : TierShare) : TierStatistics where
  model := k.model
  tier := k.tier
  discount := k.discount
  requests := s.requests
  input := s.input
  output := s.output
  cacheRead := s.cacheRead
  cacheWrite := s.cacheWrite
  multimediaUsage := s.multimediaUsage
  amount := floatString s.amount 12
  beforeAmount := s.before.1
  prices := .ofPresent s.prices.1

end TierShare

/-! ### An accumulator gathers shares -/

/-- `Add`, for an amount that can be read. -/
def statisticsGather : Gather TierStatistics TierStatisticsKey TierStatistics where
  key := TierStatistics.key
  first v := v.start.count v ((ratSetString v.amount).getD 0)
  add g v := { g with beforeAmount := mergeBefore g.beforeAmount v.beforeAmount }.count v ((ratSetString v.amount).getD 0)

variable {v : TierStatistics}

theorem add_eq_step {x : Rat} (hx : ratSetString v.amount = some x) (a : TierStatisticsAccumulator) :
    a.add v = .ok (statisticsGather.step a v) := by
  simp only [add, Gather.step, statisticsGather, hx, Option.getD_some]
  cases a.find v.key <;> rfl

/-- The statistics of a key have the share of its members. -/
structure TierStatistics.Brings (v : TierStatistics) (s : TierShare) : Prop where
  requests : v.requests = s.requests
  input : v.input = s.input
  output : v.output = s.output
  cacheRead : v.cacheRead = s.cacheRead
  cacheWrite : v.cacheWrite = s.cacheWrite
  multimediaUsage : v.multimediaUsage = s.multimediaUsage
  amount : ratSetString v.amount = some (s.amount : Rat)
  before : v.beforeAmount = s.before
  prices : ∃ p, v.prices = .ofPresent p ∧ s.prices.1 = if p = ∅ then {unknownKey} else p

open TierStatistics

theorem merge_ofPresent (p q : Finset String) :
    (ofPresent p).merge (.ofPresent q) = .ofPresent (p ∪ if q = ∅ then {unknownKey} else q) := by
  unfold UnitPrices.merge
  by_cases hq : q = ∅
  · simp [ofPresent, mark, hq]
  · simp [ofPresent, mark, hq]

/-- A row brings the share of its group: a group has prices, and its amount is a number. -/
theorem TierShare.row_brings (k : TierStatisticsKey) (s : TierShare) : (s.row k).Brings s where
  requests := rfl
  input := rfl
  output := rfl
  cacheRead := rfl
  cacheWrite := rfl
  multimediaUsage := rfl
  amount := ratSetString_printed s.amount.2
  before := rfl
  prices := ⟨s.prices.1, rfl, (if_neg s.prices.2.ne_empty).symm⟩

theorem first_eq_row {s : TierShare} (h : v.Brings s) : statisticsGather.first v = s.row v.key := by
  obtain ⟨p, hp, hprices⟩ := h.prices
  have hzero : ratSetString "0" = some 0 := by decide +kernel
  have hmerged : UnitPrices.empty.merge v.prices = .ofPresent s.prices := by
    rw [hp, hprices, show UnitPrices.empty = .ofPresent ∅ from rfl, merge_ofPresent, Finset.empty_union]
  simp only [statisticsGather, TierStatistics.count, TierStatistics.start, TierShare.row, TierStatistics.key, MultimediaUsage.add,
    MultimediaUsage.zero, h.requests, h.input, h.output, h.cacheRead, h.cacheWrite, h.multimediaUsage, h.amount, h.before, hzero,
    hmerged, zero_add, Option.getD_some]

theorem add_eq_row {s t : TierShare} (h : v.Brings t) (k : TierStatisticsKey) :
    statisticsGather.add (s.row k) v = (s + t).row k := by
  obtain ⟨p, hp, hprices⟩ := h.prices
  have hmerged : (ofPresent s.prices.1).merge v.prices = .ofPresent (s.prices.1 ∪ t.prices.1) := by
    rw [hp, hprices, merge_ofPresent]
  simp only [statisticsGather, TierStatistics.count, TierShare.row, TierShare.add_def, h.requests, h.input, h.output, h.cacheRead,
    h.cacheWrite, h.multimediaUsage, h.amount, h.before, ratSetString_printed s.amount.2, hmerged, Option.getD_some, AddSubmonoid.coe_add]

/-! ### The rows of an accumulator -/

/-- The key of a row, as the rows are ordered. -/
def TierStatisticsKey.rank (k : TierStatisticsKey) : String ×ₗ String ×ₗ String := toLex (k.model, toLex (k.tier, k.discount))

theorem TierStatisticsKey.rank_injective {k k' : TierStatisticsKey} (h : k.rank = k'.rank) : k = k' := by
  cases k
  cases k'
  simpa [TierStatisticsKey.rank] using h

theorem TierStatistics.less_iff {a b : TierStatistics} : a.less b = true ↔ a.key.rank < b.key.rank := by
  simp only [less, key, TierStatisticsKey.rank, Prod.Lex.toLex_lt_toLex]
  split
  · next hne => simp [hne]
  · next heq =>
    rw [not_not] at heq
    simp only [heq, lt_irrefl, false_or, true_and]
    split
    · next hne => simp [hne]
    · next heq' =>
      rw [not_not] at heq'
      simp [heq']

theorem not_less_iff {a b : TierStatistics} : (!b.less a) = true ↔ a.key.rank ≤ b.key.rank := by
  rw [Bool.not_eq_true', Bool.eq_false_iff, Ne, TierStatistics.less_iff, not_lt]

/-- **The rows of distinct keys have one order.** -/
theorem rowsIn_perm {l l' : List TierStatistics} (hl : (l.map key).Nodup) (h : l'.Perm l) :
    rowsIn l' = rowsIn l := by
  have : Std.Total fun a b : TierStatistics => (!b.less a) = true :=
    ⟨fun a b => by rw [not_less_iff, not_less_iff]; exact le_total _ _⟩
  have : IsTrans TierStatistics fun a b => (!b.less a) = true :=
    ⟨fun _ _ _ hab hbc => not_less_iff.mpr ((not_less_iff.mp hab).trans (not_less_iff.mp hbc))⟩
  refine (insertionSort_eq_iff l).mpr (fun a ha b hb hab hba => ?_) l' h
  have hrank := le_antisymm (not_less_iff.mp hab) (not_less_iff.mp hba)
  exact inj_on_of_nodup_map hl ha hb (TierStatisticsKey.rank_injective hrank)

/-- The rows of statistics that are added up. -/
def totalRows (vs : List TierStatistics) : List TierStatistics :=
  rowsIn ((statisticsGather.groups vs).rows.map Prod.snd)

section Shares
variable {β : Type} {f : β → TierStatistics} {share : β → TierShare} (hshare : ∀ b, (f b).Brings (share b))
include hshare

theorem statisticsGather_embeds :
    statisticsGather.Embeds (Gather.sharing (fun b => (f b).key) share) f fun k s => s.row k where
  key _ := rfl
  first b := first_eq_row (hshare b)
  add _ b := add_eq_row (hshare b) (f b).key

/-- The groups of statistics that bring shares, as rows. -/
theorem groups_map (l : List β) : (statisticsGather.groups (l.map f)).rows.map Prod.snd =
      ((Gather.sharing (fun b => (f b).key) share).groups l).rows.map fun e => e.2.row e.1 := by
  rw [(statisticsGather_embeds hshare).groups, map_map]
  rfl

theorem keys_groups (l : List β) :
    (((statisticsGather.groups (l.map f)).rows.map Prod.snd).map key).Nodup := by
  rw [groups_map hshare, map_map]
  exact ((Gather.sharing (fun b => (f b).key) share).groups l).unique

/-- **Lists with the same shares of every key have the same rows.** -/
theorem totalRows_eq {β' : Type} {f' : β' → TierStatistics} {share' : β' → TierShare}
    (hshare' : ∀ b, (f' b).Brings (share' b)) {l : List β} {l' : List β'}
    (h : ((Gather.sharing (fun b => (f b).key) share).groups l).rows.Perm ((Gather.sharing (fun b => (f' b).key) share').groups l').rows) :
    totalRows (l.map f) = totalRows (l'.map f') := by
  refine rowsIn_perm (keys_groups hshare' l') ?_
  rw [groups_map hshare, groups_map hshare']
  exact h.map _

end Shares

/-! ### Statistics that can be added up -/

/-- Amounts of at most twelve decimals, one before the discount that may be unknown, and
prices that are all true. -/
structure TierStatistics.Exact (v : TierStatistics) : Prop where
  amount : IsAmount v.amount
  before : IsBefore v.beforeAmount
  prices : v.prices.absent = ∅

/-- The share of statistics. Without prices they bring the mark of unknown ones. -/
def exactShare (v : {v : TierStatistics // v.Exact}) : TierShare where
  requests := v.1.requests
  input := v.1.input
  output := v.1.output
  cacheRead := v.1.cacheRead
  cacheWrite := v.1.cacheWrite
  multimediaUsage := v.1.multimediaUsage
  amount := ⟨(ratSetString v.1.amount).getD 0, by
    obtain ⟨x, hx, hread⟩ := v.2.amount
    rw [hread]
    exact hx⟩
  before := ⟨v.1.beforeAmount, v.2.before⟩
  prices := ⟨if v.1.prices.present = ∅ then {unknownKey} else v.1.prices.present, by
    split
    · exact Finset.singleton_nonempty _
    · next hne => exact Finset.nonempty_iff_ne_empty.mpr hne⟩

theorem eq_ofPresent {p : UnitPrices} (h : p.absent = ∅) : p = .ofPresent p.present := by
  cases p with
  | mk present absent disjoint =>
    subst h
    rfl

theorem exact_brings (v : {v : TierStatistics // v.Exact}) : v.1.Brings (exactShare v) where
  requests := rfl
  input := rfl
  output := rfl
  cacheRead := rfl
  cacheWrite := rfl
  multimediaUsage := rfl
  amount := by
    obtain ⟨x, hx, hread⟩ := v.2.amount
    simp only [exactShare, hread, Option.getD_some]
  before := rfl
  prices := ⟨v.1.prices.present, eq_ofPresent v.2.prices, rfl⟩

theorem row_exact (k : TierStatisticsKey) (s : TierShare) : (s.row k).Exact where
  amount := ⟨s.amount, s.amount.2, ratSetString_printed s.amount.2⟩
  before := s.before.2
  prices := rfl

section Statistics
variable {vs vs' : List TierStatistics}

theorem foldlM_add (h : ∀ v ∈ vs, v.Exact) (a : TierStatisticsAccumulator) :
    vs.foldlM add a = .ok (vs.foldl statisticsGather.step a) := by
  induction vs generalizing a with
  | nil => rfl
  | cons v vs ih =>
    obtain ⟨x, -, hx⟩ := (h v mem_cons_self).amount
    rw [foldlM_cons, add_eq_step hx]
    exact ih (fun v hv => h v (mem_cons_of_mem _ hv)) _

/-- Statistics that can be added up give one list of rows, in whatever order the map is read. -/
theorem exists_rows (h : ∀ v ∈ vs, v.Exact) :
    ∃ a, ofStatistics vs = .ok a ∧ ∀ out, a.Rows out ↔ out = totalRows vs := by
  refine ⟨statisticsGather.groups vs, foldlM_add h _, fun out => ?_⟩
  lift vs to List {v : TierStatistics // v.Exact} using h
  have hkeys := keys_groups exact_brings vs
  constructor
  · rintro ⟨order, horder, rfl⟩
    exact rowsIn_perm hkeys horder
  · intro hout
    exact ⟨_, List.Perm.refl _, hout⟩

theorem totalRows_exact (h : ∀ v ∈ vs, v.Exact) : ∀ r ∈ totalRows vs, r.Exact := by
  intro r hr
  lift vs to List {v : TierStatistics // v.Exact} using h
  rw [totalRows, rowsIn, mem_insertionSort, groups_map exact_brings] at hr
  obtain ⟨e, -, rfl⟩ := mem_map.mp hr
  exact row_exact e.1 e.2

/-- The order of statistics does not matter. -/
theorem totalRows_perm (h : ∀ v ∈ vs, v.Exact) (hperm : vs'.Perm vs) : totalRows vs' = totalRows vs := by
  have h' : ∀ v ∈ vs', v.Exact := fun v hv => h v (hperm.mem_iff.mp hv)
  lift vs to List {v : TierStatistics // v.Exact} using h
  lift vs' to List {v : TierStatistics // v.Exact} using h'
  have hperm : vs'.Perm vs := (map_perm_map_iff Subtype.val_injective).mp hperm
  exact totalRows_eq exact_brings exact_brings (Gather.sharing_perm (Gather.shares_perm hperm))

/-- The same statistics under another key. -/
def TierStatistics.under (f : TierStatisticsKey → TierStatisticsKey) (v : TierStatistics) : TierStatistics :=
  { v with model := (f v.key).model, tier := (f v.key).tier, discount := (f v.key).discount }

theorem TierStatistics.Exact.under {v : TierStatistics} (h : v.Exact) (f : TierStatisticsKey → TierStatisticsKey) : (v.under f).Exact :=
  ⟨h.amount, h.before, h.prices⟩

theorem TierStatistics.Brings.under {v : TierStatistics} {s : TierShare} (h : v.Brings s) (f : TierStatisticsKey → TierStatisticsKey) :
    (v.under f).Brings s :=
  ⟨h.requests, h.input, h.output, h.cacheRead, h.cacheWrite, h.multimediaUsage, h.amount, h.before, h.prices⟩

theorem map_under_id (vs : List TierStatistics) : vs.map (under id) = vs := map_id vs

/-- **Rows added up again.** The rows of the parts of a list, put under other keys, have
the same rows as the list under those keys. -/
theorem totalRows_regroup (f : TierStatisticsKey → TierStatisticsKey) {parts : List (List TierStatistics)} {rows : List TierStatistics}
    (hparts : ∀ part ∈ parts, ∀ v ∈ part, v.Exact) (hrows : rows.Perm (parts.flatMap totalRows)) (hvs : vs.Perm parts.flatten) :
    totalRows (rows.map (under f)) = totalRows (vs.map (under f)) := by
  lift parts to List (List {v : TierStatistics // v.Exact}) using hparts
  let key := fun v : {v : TierStatistics // v.Exact} => v.1.key
  let groups := parts.flatMap fun part => ((Gather.sharing key exactShare).groups part).rows
  have hgroups : rows.Perm (groups.map fun e => e.2.row e.1) := by
    refine hrows.trans ?_
    rw [flatMap_map, map_flatMap]
    refine List.Perm.flatMap_left _ fun part _ => ?_
    refine (perm_insertionSort _ _).trans ?_
    rw [groups_map exact_brings]
  have hflatten : vs.Perm (parts.flatten.map Subtype.val) := by
    rw [map_flatten]
    exact hvs
  have hrow : (groups.map fun e => e.2.row e.1).map (under f) = groups.map fun e => e.2.row (f e.1) := by
    rw [map_map]
    rfl
  have hleft : totalRows (rows.map (under f)) = totalRows (groups.map fun e => e.2.row (f e.1)) := by
    refine totalRows_perm (fun v hv => ?_) (hrow ▸ hgroups.map _)
    obtain ⟨e, -, rfl⟩ := mem_map.mp hv
    exact row_exact _ _
  have hright : totalRows (vs.map (under f)) = totalRows (parts.flatten.map fun v => v.1.under f) := by
    have hmap := hflatten.map (under f)
    rw [map_map] at hmap
    refine totalRows_perm (fun v hv => ?_) hmap
    obtain ⟨w, -, rfl⟩ := mem_map.mp hv
    exact w.2.under f
  rw [hleft, hright]
  exact totalRows_eq (fun e : TierStatisticsKey × TierShare => TierShare.row_brings (f e.1) e.2) (fun v => (exact_brings v).under f)
    (Gather.sharing_regroup f (List.Perm.refl _) (List.Perm.refl _))

def TierStatisticsKey.withoutModel (k : TierStatisticsKey) : TierStatisticsKey := { k with model := "" }

/-- The statistics by tier are those of the members, with the models left out. -/
theorem byTier_iff (h : ∀ v ∈ vs, v.Exact) (result : Except String (List TierStatistics)) :
    TierStatisticsByTier (totalRows vs) result ↔ result = .ok (totalRows (vs.map (under TierStatisticsKey.withoutModel))) := by
  have hsame := totalRows_regroup TierStatisticsKey.withoutModel (forall_mem_singleton.mpr h) (by rw [flatMap_singleton])
    (by rw [flatten_singleton])
  have hexact : ∀ v ∈ (totalRows vs).map (under TierStatisticsKey.withoutModel), v.Exact := by
    intro v hv
    obtain ⟨r, hr, rfl⟩ := mem_map.mp hv
    exact (totalRows_exact h r hr).under _
  obtain ⟨a, ha, hrows⟩ := exists_rows hexact
  have ha : ofStatistics ((totalRows vs).map fun v => { v with model := "" }) = .ok a := ha
  rw [TierStatisticsByTier, ha, ← hsame]
  simp only [hrows, exists_eq_left]

end Statistics

/-! ### What a row adds up to -/

/-- An amount before the discount as a number, infinite where it is unknown. -/
def knownBefore (s : String) : WithTop Rat := (ratSetString s).elim ⊤ fun x => (x : WithTop Rat)

theorem knownBefore_mergeBefore {a b : String} (ha : IsBefore a) (hb : IsBefore b) :
    knownBefore (mergeBefore a b) = knownBefore a + knownBefore b := by
  rw [knownBefore, knownBefore, knownBefore, ratSetString_mergeBefore ha hb]
  cases ratSetString a <;> cases ratSetString b <;> rfl

theorem knownBefore_eq_top {s : String} (h : IsBefore s) : knownBefore s = ⊤ ↔ s = "" := by
  rcases h with rfl | ⟨x, -, hx⟩
  · rw [knownBefore, ratSetString_empty]
    simp
  · rw [knownBefore, hx]
    constructor
    · intro htop
      exact absurd htop (WithTop.coe_ne_top)
    · rintro rfl
      cases hx

theorem knownBefore_eq_coe {s : String} {x : Rat} : knownBefore s = x ↔ ratSetString s = some x := by
  unfold knownBefore
  cases ratSetString s with
  | none => simp
  | some y => simp

section Measures
variable {β : Type} (key : β → TierStatisticsKey) (share : β → TierShare)

theorem amount_measures : (Gather.sharing key share).Measures (fun s => (s.amount : Rat)) fun b => ((share b).amount : Rat) where
  first _ := rfl
  add _ _ := rfl

theorem before_measures :
    (Gather.sharing key share).Measures (fun s => knownBefore s.before) fun b => knownBefore (share b).before where
  first _ := rfl
  add s b := knownBefore_mergeBefore s.before.2 (share b).before.2

end Measures

/-- A sum with an infinite part is infinite, and every other sum is that of the numbers. -/
theorem sum_knownBefore {ss : List String} (h : ∀ s ∈ ss, IsBefore s) :
    (ss.map knownBefore).sum = if "" ∈ ss then ⊤ else (((ss.map fun s => (ratSetString s).getD 0).sum : Rat) : WithTop Rat) := by
  induction ss with
  | nil => rfl
  | cons s ss ih =>
    have hs := h s mem_cons_self
    rw [map_cons, sum_cons, ih fun s hs => h s (mem_cons_of_mem _ hs)]
    by_cases hempty : s = ""
    · rw [(knownBefore_eq_top hs).mpr hempty, hempty]
      simp
    · have hread : knownBefore s = ((ratSetString s).getD 0 : Rat) := by
        have hne := mt (knownBefore_eq_top hs).mp hempty
        unfold knownBefore at hne ⊢
        cases hr : ratSetString s with
        | none => rw [hr] at hne; exact absurd rfl hne
        | some x => rfl
      have hmem : "" ∈ s :: ss ↔ "" ∈ ss := by simp [Ne.symm hempty]
      rw [hread, map_cons, sum_cons, WithTop.coe_add]
      simp only [hmem]
      split
      · exact WithTop.add_top _
      · rfl

namespace SettledDetail

/-- The members of a row. -/
def members (details : List SettledDetail) (r : TierStatistics) : List SettledDetail := details.filter fun d => d.statistics.key = r.key

/-- A row has the exact sum of the amounts of its members, and that of the amounts before
the discount unless one of them is unknown. -/
structure Sums (details : List SettledDetail) (r : TierStatistics) : Prop where
  amount : ratSetString r.amount = some ((members details r).map fun d => (ratSetString d.total).getD 0).sum
  known : (∀ d ∈ members details r, d.chargeOriginal.1 ≠ "") →
    ratSetString r.beforeAmount = some ((members details r).map fun d => (ratSetString d.chargeOriginal.1).getD 0).sum
  unknown : (∃ d ∈ members details r, d.chargeOriginal.1 = "") → r.beforeAmount = ""

variable {details : List SettledDetail}

/-- The share of a detail. -/
def share (d : {d : SettledDetail // d.statistics.Exact}) : TierShare := exactShare ⟨d.1.statistics, d.2⟩

theorem brings (d : {d : SettledDetail // d.statistics.Exact}) : d.1.statistics.Brings (share d) := exact_brings ⟨d.1.statistics, d.2⟩

theorem mem_totalRows {l : List {d : SettledDetail // d.statistics.Exact}} {r : TierStatistics} :
    r ∈ totalRows ((l.map Subtype.val).map statistics) ↔
      ∃ e ∈ (Gather.sharing (fun d : {d : SettledDetail // d.statistics.Exact} => d.1.statistics.key) share).groups l, e.2.row e.1 = r := by
  rw [map_map, totalRows, rowsIn, mem_insertionSort]
  rw [show (statistics ∘ Subtype.val : {d : SettledDetail // d.statistics.Exact} → TierStatistics) = fun d => d.1.statistics from rfl,
    groups_map brings, mem_map]
  rfl

variable (h : ∀ d ∈ details, d.statistics.Exact)
include h

theorem sums {r : TierStatistics} (hr : r ∈ totalRows (details.map statistics)) : Sums details r := by
  lift details to List {d : SettledDetail // d.statistics.Exact} using h
  obtain ⟨e, he, rfl⟩ := mem_totalRows.mp hr
  let g := Gather.sharing (fun d : {d : SettledDetail // d.statistics.Exact} => d.1.statistics.key) share
  have hwhole : g.whole (g.items e.1 details) = some e.2 := g.mem_groups.mp he
  have hmembers : members (details.map Subtype.val) (e.2.row e.1) = (g.items e.1 details).map Subtype.val := by
    rw [members, filter_map]
    rfl
  have hamount : (e.2.amount : Rat) = ((g.items e.1 details).map fun d => (ratSetString d.1.total).getD 0).sum :=
    (amount_measures _ share).whole hwhole
  have hbefore : knownBefore e.2.before = (((g.items e.1 details).map fun d => d.1.chargeOriginal.1).map knownBefore).sum := by
    rw [map_map]
    exact (before_measures _ share).whole hwhole
  rw [sum_knownBefore] at hbefore
  · constructor
    · rw [hmembers, map_map]
      exact (ratSetString_printed e.2.amount.2).trans (congrArg some hamount)
    · intro hknown
      rw [hmembers] at hknown ⊢
      rw [if_neg, map_map] at hbefore
      · rw [map_map]
        exact knownBefore_eq_coe.mp hbefore
      · intro hmem
        obtain ⟨d, hd, hempty⟩ := mem_map.mp hmem
        exact hknown d.1 (mem_map_of_mem hd) hempty
    · rintro ⟨d, hd, hempty⟩
      rw [hmembers] at hd
      obtain ⟨item, hitem, rfl⟩ := mem_map.mp hd
      rw [if_pos (mem_map.mpr ⟨item, hitem, hempty⟩)] at hbefore
      exact (knownBefore_eq_top e.2.before.2).mp hbefore
  · intro s hs
    obtain ⟨d, -, rfl⟩ := mem_map.mp hs
    exact d.2.before

/-- Every key of the details has a row, and only those. -/
theorem exists_row (k : TierStatisticsKey) :
    (∃ r ∈ totalRows (details.map statistics), r.key = k) ↔ ∃ d ∈ details, d.statistics.key = k := by
  lift details to List {d : SettledDetail // d.statistics.Exact} using h
  let g := Gather.sharing (fun d : {d : SettledDetail // d.statistics.Exact} => d.1.statistics.key) share
  constructor
  · rintro ⟨r, hr, rfl⟩
    obtain ⟨e, he, rfl⟩ := mem_totalRows.mp hr
    obtain ⟨d, hd, hkey⟩ := g.exists_item he
    exact ⟨d.1, mem_map_of_mem hd, hkey⟩
  · rintro ⟨d, hd, rfl⟩
    obtain ⟨item, hitem, rfl⟩ := mem_map.mp hd
    obtain ⟨s, hs⟩ := g.exists_group hitem
    exact ⟨s.row item.1.statistics.key, mem_totalRows.mpr ⟨_, hs, rfl⟩, rfl⟩

theorem nodup_keys : ((totalRows (details.map statistics)).map key).Nodup := by
  lift details to List {d : SettledDetail // d.statistics.Exact} using h
  rw [map_map]
  exact ((perm_insertionSort _ _).map _).nodup_iff.mpr (keys_groups brings details)

end SettledDetail

open TierStatisticsAccumulator

theorem ofDetails_eq (details : List SettledDetail) : ofDetails details = ofStatistics (details.map statistics) := by
  rw [ofStatistics, foldlM_map]
  rfl

section Details
variable {details : List SettledDetail} (h : ∀ d ∈ details, d.statistics.Exact)
include h

theorem exact_statistics : ∀ v ∈ details.map statistics, v.Exact := by
  intro v hv
  obtain ⟨d, hd, rfl⟩ := mem_map.mp hv
  exact h d hd

theorem exists_detail_rows :
    ∃ a, ofDetails details = .ok a ∧ ∀ out, a.Rows out ↔ out = totalRows (details.map statistics) := by
  rw [ofDetails_eq]
  exact exists_rows (exact_statistics h)

variable {parts : List (List SettledDetail)} {outs : List (List TierStatistics)}

omit h in
/-- The rows that the parts of a list of details have. -/
theorem rows_of_parts (h : ∀ part ∈ parts, ∀ d ∈ part, d.statistics.Exact)
    (houts : List.Forall₂ (fun part out => ∃ a, ofDetails part = .ok a ∧ a.Rows out) parts outs) :
    outs = parts.map fun part => totalRows (part.map statistics) := by
  induction houts with
  | nil => rfl
  | @cons part out parts outs hout houts ih =>
    obtain ⟨a, ha, hrows⟩ := hout
    obtain ⟨a', ha', hrows'⟩ := exists_detail_rows (h part mem_cons_self)
    have haa : a = a' := Except.ok.inj (ha.symm.trans ha')
    rw [map_cons, ih fun part hpart => h part (mem_cons_of_mem _ hpart), (hrows' out).mp (haa ▸ hrows)]

/-- The rows of the parts of a list, added up, are the rows of the list. -/
theorem exists_readded_rows (hparts : parts.flatten.Perm details)
    (houts : List.Forall₂ (fun part out => ∃ a, ofDetails part = .ok a ∧ a.Rows out) parts outs) {added : List TierStatistics}
    (hadded : added.Perm outs.flatten) :
    ∃ a, ofStatistics added = .ok a ∧ ∀ out, a.Rows out ↔ out = totalRows (details.map statistics) := by
  have hexact : ∀ part ∈ parts, ∀ d ∈ part, d.statistics.Exact := fun part hpart d hd =>
    h d (hparts.mem_iff.mp (mem_flatten.mpr ⟨part, hpart, hd⟩))
  have hstatistics : ∀ part ∈ parts.map (List.map statistics), ∀ v ∈ part, v.Exact :=
    forall_mem_map.mpr fun part hpart => exact_statistics (hexact part hpart)
  have hadded : added.Perm ((parts.map (List.map statistics)).flatMap totalRows) := by
    rw [rows_of_parts hexact houts] at hadded
    rw [flatMap_map]
    exact hadded
  have hflatten : (details.map statistics).Perm (parts.map (List.map statistics)).flatten := by
    rw [← map_flatten]
    exact (hparts.map _).symm
  have hsame := totalRows_regroup id hstatistics hadded hflatten
  rw [map_under_id, map_under_id] at hsame
  rw [← hsame]
  refine exists_rows fun v hv => ?_
  obtain ⟨part, hpart, hv⟩ := mem_flatMap.mp (hadded.mem_iff.mp hv)
  exact totalRows_exact (hstatistics part hpart) v hv

def SettledDetail.withoutModel (d : SettledDetail) : SettledDetail := { d with modelName := "" }

omit h in
theorem statistics_withoutModel (d : SettledDetail) : d.withoutModel.statistics = d.statistics.under TierStatisticsKey.withoutModel := by
  have horiginal : d.withoutModel.chargeOriginal = d.chargeOriginal := rfl
  simp only [statistics, under, key, TierStatisticsKey.withoutModel, horiginal]
  simp only [withoutModel]

theorem exists_tier_rows : ∃ a, ofDetails (details.map withoutModel) = .ok a ∧
      ∀ out, a.Rows out ↔ TierStatisticsByTier (totalRows (details.map statistics)) (.ok out) := by
  have hexact : ∀ d ∈ details.map withoutModel, d.statistics.Exact :=
    forall_mem_map.mpr fun d hd => statistics_withoutModel d ▸ (h d hd).under TierStatisticsKey.withoutModel
  obtain ⟨a, ha, hrows⟩ := exists_detail_rows hexact
  refine ⟨a, ha, fun out => ?_⟩
  have hmap : statistics ∘ withoutModel =
      under TierStatisticsKey.withoutModel ∘ statistics := by
    funext d
    exact statistics_withoutModel d
  rw [hrows, byTier_iff (exact_statistics h), map_map, map_map, Except.ok.injEq, hmap]

end Details

/-- **Tier statistics are a well-defined aggregate.** Details that can be added up have one
list of rows: for every order of the details, for every way of adding up parts of them
first, and, with the models left out, as the statistics by tier make it. Every key of the
details has one row, with the exact sums of its members. -/
theorem tierStatistics_aggregate (details : List SettledDetail) (h : ∀ d ∈ details, d.statistics.Exact) :
    ∃ rows : List TierStatistics,
      (∀ details' : List SettledDetail, details'.Perm details → ∃ a, ofDetails details' = .ok a ∧ ∀ out, a.Rows out ↔ out = rows) ∧
      (∀ (parts : List (List SettledDetail)) (outs : List (List TierStatistics)) (added : List TierStatistics),
        parts.flatten.Perm details → List.Forall₂ (fun part out => ∃ a, ofDetails part = .ok a ∧ a.Rows out) parts outs →
        added.Perm outs.flatten → ∃ a, ofStatistics added = .ok a ∧ ∀ out, a.Rows out ↔ out = rows) ∧
      (∃ a tierRows, ofDetails (details.map withoutModel) = .ok a ∧ (∀ out, a.Rows out ↔ out = tierRows) ∧
        ∀ result, TierStatisticsByTier rows result ↔ result = .ok tierRows) ∧
      (rows.map key).Nodup ∧ (∀ k, (∃ r ∈ rows, r.key = k) ↔ ∃ d ∈ details, d.statistics.key = k) ∧
      ∀ r ∈ rows, SettledDetail.Sums details r := by
  refine ⟨totalRows (details.map statistics), ?_, ?_, ?_, nodup_keys h, exists_row h,
    fun r hr => sums h hr⟩
  · intro details' hperm
    rw [← totalRows_perm (exact_statistics h) (hperm.map _)]
    exact exists_detail_rows fun d hd => h d (hperm.mem_iff.mp hd)
  · intro parts outs added hparts houts hadded
    exact exists_readded_rows h hparts houts hadded
  · obtain ⟨a, ha, hrows⟩ := exists_tier_rows h
    refine ⟨a, _, ha, fun out => ?_, byTier_iff (exact_statistics h)⟩
    rw [hrows, byTier_iff (exact_statistics h), Except.ok.injEq]

/-- A request of one tier; its settlement says what it was before the discount. -/
private def tieredRequest (model before : String) : SettledDetail where
  sourceLogId := 1
  billDay := 0
  userId := 1
  tokenId := 1
  channelId := 1
  modelName := model
  promptTokens := 10
  completionTokens := 5
  cacheReadTokens := 0
  cacheWriteTokens := 0
  cacheWrite5mTokens := 0
  cacheWrite1hTokens := 0
  imageInputTokens := 0
  imageOutputTokens := 0
  audioInputTokens := 0
  audioOutputTokens := 0
  charge := ⟨750000, some "0.5"⟩
  total := "1.5"
  matchedTier := "base"
  settlementBefore := before
  unitPrices := .empty

private theorem isAmount_example : IsAmount "1.5" := ⟨3 / 2, ⟨1500000000000, by norm_num⟩, by decide +kernel⟩

theorem tierStatistics_aggregate_three :
    ∃ rows : List TierStatistics, (∀ details' : List SettledDetail,
        details'.Perm [tieredRequest "a" "1.5", tieredRequest "a" "", tieredRequest "b" "1.5"] →
          ∃ a, ofDetails details' = .ok a ∧ ∀ out, a.Rows out ↔ out = rows) ∧
      ∀ r ∈ rows, SettledDetail.Sums [tieredRequest "a" "1.5", tieredRequest "a" "", tieredRequest "b" "1.5"] r := by
  have hexact : ∀ d ∈ [tieredRequest "a" "1.5", tieredRequest "a" "", tieredRequest "b" "1.5"], d.statistics.Exact := by
    intro d hd
    simp only [mem_cons, not_mem_nil, or_false] at hd
    rcases hd with rfl | rfl | rfl
    · exact ⟨isAmount_example, .inr isAmount_example, rfl⟩
    · exact ⟨isAmount_example, .inl rfl, rfl⟩
    · exact ⟨isAmount_example, .inr isAmount_example, rfl⟩
  obtain ⟨rows, horders, -, -, -, -, hsums⟩ := tierStatistics_aggregate _ hexact
  exact ⟨rows, horders, hsums⟩

end ControlTower.Billing
