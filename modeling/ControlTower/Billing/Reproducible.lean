import ControlTower.Billing.Reconciliation
import ControlTower.Data.Sorting
import Mathlib.Data.Prod.Lex
import Mathlib.Order.OrderDual

/-! Whether a reconciliation can be reproduced.

The amounts of the groups add up in every report: within a group, over all groups, and
over the groups of a user. The report as a whole is the same for every order of its
input and of its map exactly where its comparison tells the groups apart; it looks at
the prices, the rounded difference, the user and the day, not at the model and the
group. -/
namespace ControlTower.Billing
open Go Data List ReconciliationItem

variable {rates : Rates} {detail : Bool}

/-! ### Keys and users -/

namespace ReconciliationItem

/-- The part of a key before the first NUL, which names the user. -/
def userPart (key : String) : List Char := key.toList.takeWhile fun c => c ≠ '\x00'

theorem formatInt_ne_nul {n : Int} {c : Char} (h : c ∈ (formatInt n).toList) :
    decide (c ≠ '\x00') = true := by
  rw [decide_eq_true_iff]
  rintro rfl
  rcases isDigit_of_mem_formatInt h with hdigit | hminus
  · simp at hdigit
  · cases hminus

theorem userPart_key (i : ReconciliationItem) :
    userPart (i.key rates detail) = (formatInt i.userID).toList := by
  unfold userPart key
  split
  · simp only [String.toList_append, append_assoc]
    rw [takeWhile_append_of_pos fun c => formatInt_ne_nul]
    simp
  · exact takeWhile_eq_self_iff.mpr fun c => formatInt_ne_nul

theorem userID_of_key {i j : ReconciliationItem} (h : i.key rates detail = j.key rates detail) :
    i.userID = j.userID := by
  have hpart := congrArg userPart h
  rw [userPart_key, userPart_key] at hpart
  exact formatInt_injective (String.toList_inj.mp hpart)

/-! ### Amounts -/

/-- What an item adds to the amounts of its group. -/
def amounts (rates : Rates) : ReconciliationItem → Component → Rat
  | row r =>
    let a := rates.amounts r
    fun
    | .billed => a.ct
    | .actual => a.actual
    | .anomaly => 0
    | .cacheWrite => a.cacheWrite
    | .residual => residual a.ct a.actual 0 a.cacheWrite
  | anomaly x => fun
    | .billed => 0
    | .actual => anomalyAmount x
    | .anomaly => anomalyAmount x
    | .cacheWrite => 0
    | .residual => 0

/-- What an item adds to the difference of its group. -/
def difference (rates : Rates) (i : ReconciliationItem) : Rat :=
  i.amounts rates .actual - i.amounts rates .billed

/-- A row for which no price is configured. -/
def unpriced (rates : Rates) : ReconciliationItem → Bool
  | row r => (rates.configured r).isNone
  | anomaly _ => false

/-- What an item makes of the number of requests. -/
def requests : ReconciliationItem → Int → Int
  | row r => fun n => int64 (n + r.requestCount)
  | anomaly _ => id

/-- What an item makes of the number of abnormal rows. -/
def abnormal : ReconciliationItem → Int → Int
  | row _ => id
  | anomaly x => fun n => int64 (n + x.count)

theorem int64_right_comm (n a b : Int) : int64 (int64 (n + a) + b) = int64 (int64 (n + b) + a) := by
  simp only [int64, Int.bmod_add_bmod, add_right_comm]

theorem requests_comm (i j : ReconciliationItem) (n : Int) :
    j.requests (i.requests n) = i.requests (j.requests n) := by
  cases i <;> cases j <;> first | rfl | exact int64_right_comm _ _ _

theorem abnormal_comm (i j : ReconciliationItem) (n : Int) :
    j.abnormal (i.abnormal n) = i.abnormal (j.abnormal n) := by
  cases i <;> cases j <;> first | rfl | exact int64_right_comm _ _ _

end ReconciliationItem

theorem Rates.fallbackPriced_amounts (r : AggregateRow) :
    (rates.amounts r).fallbackPriced = (rates.configured r).isNone := by
  unfold Rates.amounts
  cases rates.configured r <;> rfl

/-- What an item does to its group. -/
theorem Acc.add_eq (s : Acc) (i : ReconciliationItem) : s.add rates i =
    { s with
      username := if s.username = "" then i.username else s.username
      requestCount := i.requests s.requestCount
      abnormalRows := i.abnormal s.abnormalRows
      fallbackPriced := s.fallbackPriced || i.unpriced rates
      ct := s.ct + i.amounts rates .billed
      actual := s.actual + i.amounts rates .actual
      anomaly := s.anomaly + i.amounts rates .anomaly
      cacheWrite := s.cacheWrite + i.amounts rates .cacheWrite } := by
  cases i with
  | row r =>
    simp only [Acc.add, ReconciliationItem.requests, ReconciliationItem.abnormal, id_eq,
      ReconciliationItem.unpriced, Rates.fallbackPriced_amounts, ReconciliationItem.amounts,
      add_zero]
    split <;> rfl
  | anomaly x =>
    simp only [Acc.add, ReconciliationItem.requests, ReconciliationItem.abnormal, id_eq,
      ReconciliationItem.unpriced, ReconciliationItem.amounts, add_zero, Bool.or_false]
    split <;> rfl

theorem amounts_add (s : Acc) (i : ReconciliationItem) :
    (s.add rates i).amounts = s.amounts + i.amounts rates := by
  funext component
  rw [Acc.add_eq, Pi.add_apply]
  cases component with
  | residual => cases i <;> simp only [Acc.amounts, amounts, residual] <;> ring
  | _ => rfl

theorem reconciliation_measures (rates : Rates) (detail : Bool) :
    (reconciliationGather rates detail).Measures Acc.amounts (amounts rates) where
  add := amounts_add
  first i := by
    have hblank : (i.blank rates detail).amounts = 0 := by
      funext component
      cases component <;> simp [ReconciliationItem.blank, Acc.amounts, residual]
    show ((i.blank rates detail).add rates i).amounts = _
    rw [amounts_add, hblank, zero_add]

theorem difference_measures (rates : Rates) (detail : Bool) :
    (reconciliationGather rates detail).Measures
    (fun s => s.actual - s.ct) (difference rates) where
  add s i := by
    show (s.add rates i).actual - (s.add rates i).ct = _
    rw [Acc.add_eq, add_sub_add_comm]
    rfl
  first i := by
    show ((i.blank rates detail).add rates i).actual - ((i.blank rates detail).add rates i).ct = _
    rw [Acc.add_eq, add_sub_add_comm]
    exact (congrArg (· + _) (sub_zero (0 : Rat))).trans (zero_add _)

theorem totalAmounts_concat (groups : List Acc) (a : Acc) :
    totalAmounts (groups ++ [a]) = totalAmounts groups + a.amounts := by
  funext component
  cases component <;> simp only [totalAmounts, Acc.amounts, residual, foldl_append,
    foldl_cons, foldl_nil, Pi.add_apply]
  ring

/-- The totals are the sums over the groups. -/
theorem totalAmounts_eq (groups : List Acc) :
    totalAmounts groups = (groups.map Acc.amounts).sum := by
  induction groups using List.reverseRecOn with
  | nil =>
    funext component
    cases component <;> simp [totalAmounts, residual]
  | append_singleton groups a ih =>
    rw [totalAmounts_concat, ih, map_append, sum_append, map_singleton, sum_singleton]

/-! ### Labels -/

/-- The items of a report, rows first. -/
def reconciliationItems (rows : List AggregateRow) (anomalies : List AnomalyCount) :
    List ReconciliationItem :=
  rows.map .row ++ anomalies.map .anomaly

/-- The items of a key, in their order. -/
def keyed (rates : Rates) (detail : Bool) (rows : List AggregateRow) (anomalies : List AnomalyCount)
    (k : String) : List ReconciliationItem :=
  (reconciliationGather rates detail).items k (reconciliationItems rows anomalies)

def Acc.labels (a : Acc) : String × String × String := (a.day, a.modelName, a.groupName)

variable {rows rows' : List AggregateRow} {anomalies anomalies' : List AnomalyCount}
  {e : String × Acc} {i j : ReconciliationItem} {k : String}

theorem whole_keyed (he : e ∈ reconciliationValues rates detail rows anomalies) :
    (reconciliationGather rates detail).whole (keyed rates detail rows anomalies e.1) = some e.2 :=
  (reconciliationGather rates detail).mem_groups.mp he

/-- A group has the user and the labels of its first item, and lacks a price where one of
its items does. -/
theorem exists_head (he : e ∈ reconciliationValues rates detail rows anomalies) :
    ∃ head rest, keyed rates detail rows anomalies e.1 = head :: rest ∧ e.2.userID = head.userID ∧
      e.2.labels = head.labels rates detail ∧
      e.2.fallbackPriced = (head :: rest).any (·.unpriced rates) := by
  have hwhole := whole_keyed he
  cases hitems : keyed rates detail rows anomalies e.1 with
  | nil =>
    rw [hitems] at hwhole
    cases hwhole
  | cons head rest =>
    rw [hitems, Gather.whole, Option.some.injEq] at hwhole
    have hkept : ∀ (l : List ReconciliationItem) (s : Acc),
        (l.foldl (Acc.add rates) s).userID = s.userID ∧
        (l.foldl (Acc.add rates) s).labels = s.labels ∧
        (l.foldl (Acc.add rates) s).fallbackPriced =
          (s.fallbackPriced || l.any (·.unpriced rates)) := by
      intro l
      induction l with
      | nil => exact fun s => ⟨rfl, rfl, (Bool.or_false _).symm⟩
      | cons i l ih =>
        intro s
        obtain ⟨huser, hlabels, hpriced⟩ := ih (s.add rates i)
        rw [foldl_cons, huser, hlabels, hpriced, Acc.add_eq, any_cons, ← Bool.or_assoc]
        exact ⟨rfl, rfl, rfl⟩
    obtain ⟨huser, hlabels, hpriced⟩ := hkept (head :: rest) (head.blank rates detail)
    exact ⟨head, rest, rfl, hwhole ▸ huser, hwhole ▸ hlabels, hwhole ▸ hpriced⟩

theorem mem_keyed : i ∈ keyed rates detail rows anomalies k ↔
    i ∈ reconciliationItems rows anomalies ∧ i.key rates detail = k := by
  rw [keyed, Gather.items, mem_filter, decide_eq_true_eq]
  rfl

/-- The first item of a group has its key. -/
theorem key_head {head : ReconciliationItem} {rest : List ReconciliationItem}
    (h : keyed rates detail rows anomalies k = head :: rest) : head.key rates detail = k :=
  (mem_keyed.mp (h ▸ mem_cons_self)).2

theorem userPart_group (he : e ∈ reconciliationValues rates detail rows anomalies) :
    userPart e.1 = (formatInt e.2.userID).toList := by
  obtain ⟨head, rest, hitems, huser, -⟩ := exists_head he
  rw [← key_head hitems, userPart_key, huser]

/-! ### The groups of a user -/

theorem amounts_userPart (rates : Rates) (detail : Bool) (rows : List AggregateRow)
    (anomalies : List AnomalyCount) (u : Int) :
    (reconciliationValues rates detail rows anomalies).total
        (fun e => if e.2.userID = u then e.2.amounts else 0) =
      ((reconciliationItems rows anomalies).map fun i => if i.userID = u then i.amounts rates
        else 0).sum := by
  have htotal := (reconciliation_measures rates detail).total
    (fun k => userPart k = (formatInt u).toList) (reconciliationItems rows anomalies)
  have hinjective : ∀ n : Int, (formatInt n).toList = (formatInt u).toList ↔ n = u :=
    fun n => ⟨fun h => formatInt_injective (String.toList_inj.mp h), fun h => by rw [h]⟩
  have hkey : ∀ i, (reconciliationGather rates detail).key i = i.key rates detail := fun _ => rfl
  simp only [decide_eq_true_eq, hkey, userPart_key, hinjective] at htotal
  rw [← htotal]
  refine Table.total_congr fun e he => ?_
  rw [userPart_group he]
  simp only [hinjective]

/-- **The amounts of a user are those of the user's groups.** -/
theorem user_amounts (he : e ∈ reconciliationValues rates false rows anomalies) :
    e.2.amounts = (reconciliationValues rates true rows anomalies).total fun e' =>
      if e'.2.userID = e.2.userID then e'.2.amounts else 0 := by
  rw [amounts_userPart, (reconciliation_measures rates false).group he]
  have hkey : ∀ i : ReconciliationItem, i.key rates false = e.1 ↔ i.userID = e.2.userID := by
    intro i
    obtain ⟨head, rest, hitems, huser, -⟩ := exists_head he
    rw [← key_head hitems, huser]
    exact ⟨userID_of_key, fun h => by simp only [key, h]; rfl⟩
  exact congrArg List.sum (map_congr_left fun i _ => if_congr (hkey i) rfl rfl)

/-! ### The order of the input -/

theorem Acc.add_comm (hnames : i.username = "" ∨ j.username = "" ∨ i.username = j.username)
    (s : Acc) :
    (s.add rates i).add rates j = (s.add rates j).add rates i := by
  simp only [Acc.add_eq, Acc.mk.injEq, true_and]
  refine ⟨?_, i.requests_comm j _, i.abnormal_comm j _, Bool.or_right_comm _ _ _,
    add_right_comm _ _ _,
    add_right_comm _ _ _, add_right_comm _ _ _, add_right_comm _ _ _⟩
  grind

/-- The group that `ensure` makes, before its first item has named the user. -/
def ReconciliationItem.bare (rates : Rates) (detail : Bool) (i : ReconciliationItem) : Acc :=
  { i.blank rates detail with username := "" }

theorem whole_cons (head : ReconciliationItem) (rest : List ReconciliationItem) :
    (reconciliationGather rates detail).whole (head :: rest) =
      some ((head :: rest).foldl (Acc.add rates) (head.bare rates detail)) := by
  have hfirst : (head.blank rates detail).add rates head =
      (head.bare rates detail).add rates head := by
    rw [Acc.add_eq, Acc.add_eq]
    by_cases hname : head.username = "" <;> simp [bare, ReconciliationItem.blank, hname]
  show some (rest.foldl (Acc.add rates) ((head.blank rates detail).add rates head)) = _
  rw [hfirst]
  rfl

theorem whole_perm {l l' : List ReconciliationItem} (h : l'.Perm l)
    (hnames : ∀ i ∈ l, ∀ j ∈ l, i.username = "" ∨ j.username = "" ∨ i.username = j.username)
    (hheads : ∀ i ∈ l.head?, ∀ j ∈ l'.head?, i.userID = j.userID ∧
      i.labels rates detail = j.labels rates detail) :
    (reconciliationGather rates detail).whole l' = (reconciliationGather rates detail).whole l := by
  cases l with
  | nil => rw [perm_nil.mp h]
  | cons head rest =>
    cases l' with
    | nil => exact absurd h.symm (by simp)
    | cons head' rest' =>
      obtain ⟨huser, hlabels⟩ := hheads head rfl head' rfl
      have hbare : head'.bare rates detail = head.bare rates detail := by
        simp only [bare, ReconciliationItem.blank, huser, hlabels]
      rw [whole_cons, whole_cons, hbare]
      refine congrArg some (h.symm.foldl_eq' (fun i hi j hj s => ?_) _).symm
      exact Acc.add_comm (hnames i hi j hj) s

section Conditions
variable (rates detail rows anomalies)

/-- The items that may name a group: the rows, and the anomalies of a key that no row
has. -/
def headings : List ReconciliationItem :=
  rows.map .row ++ (anomalies.map .anomaly).filter fun i =>
    ∀ r ∈ rows, key rates detail (.row r) ≠ i.key rates detail

/-- What could let the labels of a group depend on the order is left out. -/
def OneLabel : Prop :=
  ∀ i ∈ headings rates detail rows anomalies, ∀ j ∈ headings rates detail rows anomalies,
    i.key rates detail = j.key rates detail → i.labels rates detail = j.labels rates detail

/-- What decides the place of an item's group: whether a row of the key lacks a price, the
sum of the differences of the key in millionths, the user and the day. -/
def standing (i : ReconciliationItem) : Bool × Int × Int × String :=
  let items := keyed rates detail rows anomalies (i.key rates detail)
  (items.any (·.unpriced rates), ⌊|(items.map (·.difference rates)).sum| * 10 ^ 6 + 1 / 2⌋,
    i.userID, (i.labels rates detail).1)

/-- Items of different keys stand apart. -/
def Placed : Prop :=
  ∀ i ∈ headings rates detail rows anomalies, ∀ j ∈ headings rates detail rows anomalies,
    standing rates detail rows anomalies i = standing rates detail rows anomalies j →
      i.key rates detail = j.key rates detail

end Conditions

/-- Rows of one user carry one username. -/
def OneName (rows : List AggregateRow) : Prop :=
  ∀ a ∈ rows, ∀ b ∈ rows, a.userID = b.userID → a.username = b.username

theorem mem_headings : i ∈ headings rates detail rows anomalies ↔ (∃ r ∈ rows, .row r = i) ∨
    (∃ a ∈ anomalies, .anomaly a = i) ∧
      ∀ r ∈ rows, key rates detail (.row r) ≠ i.key rates detail := by
  rw [headings, mem_append, mem_filter, mem_map, mem_map, decide_eq_true_eq]

theorem headings_perm (hrows : rows'.Perm rows) (hanomalies : anomalies'.Perm anomalies) :
    i ∈ headings rates detail rows' anomalies' ↔ i ∈ headings rates detail rows anomalies := by
  simp only [mem_headings, hrows.mem_iff, hanomalies.mem_iff]

/-- The first item of a key is a row, if there is one. -/
theorem head_mem_headings (h : (keyed rates detail rows anomalies k).head? = some i) :
    i ∈ headings rates detail rows anomalies := by
  have hmem := mem_keyed.mp (mem_of_mem_head? h)
  rcases mem_append.mp hmem.1 with hi | hi
  · exact mem_headings.mpr (.inl (mem_map.mp hi))
  · refine mem_headings.mpr (.inr ⟨mem_map.mp hi, fun r hr hkey => ?_⟩)
    -- a row of the key would have come first
    have hrow : .row r ∈ (rows.map row).filter
        fun i => (reconciliationGather rates detail).key i = k :=
      mem_filter.mpr ⟨mem_map_of_mem hr, decide_eq_true (hkey.trans hmem.2)⟩
    rw [keyed, Gather.items, reconciliationItems, filter_append,
      List.head?_append_of_ne_nil _ (ne_nil_of_mem hrow)] at h
    obtain ⟨r', -, hr'⟩ := mem_map.mp (mem_filter.mp (mem_of_mem_head? h)).1
    obtain ⟨a, -, ha⟩ := mem_map.mp hi
    cases hr'.trans ha.symm

/-- In some order of the input an item comes first of those of its key. -/
theorem exists_order (h : i ∈ headings rates detail rows anomalies) :
    ∃ rows' anomalies', rows'.Perm rows ∧ anomalies'.Perm anomalies ∧
      ∃ rest, keyed rates detail rows' anomalies' (i.key rates detail) = i :: rest := by
  rcases mem_headings.mp h with ⟨r, hr, rfl⟩ | ⟨⟨a, ha, rfl⟩, hnone⟩
  · refine ⟨r :: rows.erase r, anomalies, (perm_cons_erase hr).symm, List.Perm.refl _, ?_⟩
    rw [keyed, Gather.items, reconciliationItems, map_cons, cons_append]
    exact ⟨_, filter_cons_of_pos (decide_eq_true rfl)⟩
  · have hrows : (rows.map row).filter (fun i => (reconciliationGather rates detail).key i =
        key rates detail (.anomaly a)) = [] := by
      refine filter_eq_nil_iff.mpr fun i hi hkey => ?_
      obtain ⟨r, hr, rfl⟩ := mem_map.mp hi
      exact hnone r hr (of_decide_eq_true hkey)
    refine ⟨rows, a :: anomalies.erase a, List.Perm.refl _, (perm_cons_erase ha).symm, ?_⟩
    rw [keyed, Gather.items, reconciliationItems, filter_append, hrows, nil_append]
    exact ⟨_, filter_cons_of_pos (decide_eq_true rfl)⟩

theorem keyed_perm (hrows : rows'.Perm rows) (hanomalies : anomalies'.Perm anomalies) :
    (keyed rates detail rows' anomalies' k).Perm (keyed rates detail rows anomalies k) :=
  ((hrows.map _).append (hanomalies.map _)).filter _

theorem OneName.items (h : OneName rows) (hi : i ∈ keyed rates detail rows anomalies k)
    (hj : j ∈ keyed rates detail rows anomalies k) :
    i.username = "" ∨ j.username = "" ∨ i.username = j.username := by
  obtain ⟨hi, hkey⟩ := mem_keyed.mp hi
  obtain ⟨hj, hkey'⟩ := mem_keyed.mp hj
  rcases mem_append.mp hi with hi | hi
  · rcases mem_append.mp hj with hj | hj
    · obtain ⟨a, ha, rfl⟩ := mem_map.mp hi
      obtain ⟨b, hb, rfl⟩ := mem_map.mp hj
      exact .inr (.inr (h a ha b hb (userID_of_key (hkey.trans hkey'.symm))))
    · obtain ⟨b, hb, rfl⟩ := mem_map.mp hj
      exact .inr (.inl rfl)
  · obtain ⟨a, ha, rfl⟩ := mem_map.mp hi
    exact .inl rfl

/-- The groups do not depend on the order of the input. -/
theorem OneLabel.values_perm (h : OneLabel rates detail rows anomalies) (hnames : OneName rows)
    (hrows : rows'.Perm rows) (hanomalies : anomalies'.Perm anomalies) :
    (reconciliationValues rates detail rows' anomalies').rows.Perm
      (reconciliationValues rates detail rows anomalies).rows := by
  refine Gather.groups_perm _ fun k => whole_perm (keyed_perm hrows hanomalies)
    (fun i hi j hj => hnames.items hi hj) fun i hi j hj => ?_
  have hkey : i.key rates detail = j.key rates detail :=
    (mem_keyed.mp (mem_of_mem_head? hi)).2.trans (mem_keyed.mp (mem_of_mem_head? hj)).2.symm
  exact ⟨userID_of_key hkey, h i (head_mem_headings hi) j
    ((headings_perm hrows hanomalies).mp (head_mem_headings hj)) hkey⟩

/-! ### The comparison -/

/-- What the comparison looks at. -/
def ReconciliationRow.place (a : ReconciliationRow) : Bool × Rat × Int × String :=
  (a.fallbackPriced, |signedRat a.diffAmount|, a.userID, a.day)

/-- The place of a row in the order of the report. -/
def ReconciliationRow.rank (a : ReconciliationRow) : Bool ×ₗ Ratᵒᵈ ×ₗ Int ×ₗ Stringᵒᵈ :=
  toLex (a.fallbackPriced, toLex (OrderDual.toDual |signedRat a.diffAmount|,
    toLex (a.userID, OrderDual.toDual a.day)))

variable {a b : ReconciliationRow}

theorem less_iff : a.less b = true ↔ a.rank < b.rank := by
  simp only [ReconciliationRow.less, ReconciliationRow.rank, Prod.Lex.toLex_lt_toLex,
    OrderDual.toDual_lt_toDual, EmbeddingLike.apply_eq_iff_eq, Bool.lt_iff]
  split
  · next hne => cases ha : a.fallbackPriced <;> cases hb : b.fallbackPriced <;> simp_all
  · next heq =>
    rw [not_not] at heq
    simp only [heq, true_and]
    split
    · next hne => simp [hne]
    · next heq' =>
      rw [not_not] at heq'
      simp only [heq', lt_irrefl, false_or, true_and]
      split
      · next hne => simp [hne]
      · next heq'' =>
        rw [not_not] at heq''
        simp [heq'']

theorem rank_eq_iff : a.rank = b.rank ↔ a.place = b.place := by
  simp only [ReconciliationRow.rank, ReconciliationRow.place, EmbeddingLike.apply_eq_iff_eq,
    Prod.mk.injEq]

/-- The comparison as the sort of a report uses it. -/
abbrev notAfter (a b : ReconciliationRow) : Prop := (!b.less a) = true

theorem notAfter_iff : notAfter a b ↔ a.rank ≤ b.rank := by
  rw [notAfter, Bool.not_eq_true', Bool.eq_false_iff, Ne, less_iff, not_lt]

instance : Std.Total notAfter := ⟨fun a b => by rw [notAfter_iff, notAfter_iff]; exact le_total _ _⟩

instance : IsTrans ReconciliationRow notAfter :=
  ⟨fun _ _ _ hab hbc => notAfter_iff.mpr ((notAfter_iff.mp hab).trans (notAfter_iff.mp hbc))⟩

theorem reportOf_eq (groups : List Acc) :
    reportOf groups = ⟨(groups.map Acc.row).insertionSort notAfter, totals groups⟩ := rfl

theorem totals_perm {groups groups' : List Acc} (h : groups'.Perm groups) :
    totals groups' = totals groups := by
  have hamounts : totalAmounts groups' = totalAmounts groups := by
    rw [totalAmounts_eq, totalAmounts_eq, (h.map Acc.amounts).sum_eq]
  rw [totals, totals, hamounts]

/-! ### Places -/

theorem abs_signedRat_floatString (x : Rat) :
    |signedRat (floatString x 6)| = ((⌊|x| * 10 ^ 6 + 1 / 2⌋ : Int) : Rat) / 10 ^ 6 := by
  have hnonneg : (0 : Rat) ≤ (scaled x 6 : Rat) / 10 ^ 6 := by positivity
  rw [← scaled_eq_floor, signedRat, trimSpace_floatString x (by decide),
    ratSetString_floatString (by decide), Option.getD_some, Int.cast_natCast]
  split
  · rw [abs_neg, abs_of_nonneg hnonneg]
  · rw [abs_of_nonneg hnonneg]

/-- A difference in millionths as it is read back from the report. -/
def inUnits (p : Bool × Int × Int × String) : Bool × Rat × Int × String :=
  (p.1, (p.2.1 : Rat) / 10 ^ 6, p.2.2)

theorem inUnits_injective : Function.Injective inUnits := by
  intro p q h
  simpa [inUnits, Prod.ext_iff] using h

/-- The place of a group is told by the items of its key. -/
theorem exists_standing (he : e ∈ reconciliationValues rates detail rows anomalies) :
    ∃ head ∈ headings rates detail rows anomalies, head.key rates detail = e.1 ∧
      e.2.row.place = inUnits (standing rates detail rows anomalies head) := by
  obtain ⟨head, rest, hitems, huser, hlabels, hpriced⟩ := exists_head he
  have hkey := key_head hitems
  have hdifference := (difference_measures rates detail).whole (whole_keyed he)
  have hday : e.2.day = (head.labels rates detail).1 := congrArg Prod.fst hlabels
  refine ⟨head, head_mem_headings (by rw [hitems]; rfl), hkey, ?_⟩
  rw [inUnits, standing, hkey, ← hdifference, ← abs_signedRat_floatString, hitems, ← hpriced,
    ← huser, ← hday]
  rfl

theorem OneLabel.standing_eq (h : OneLabel rates detail rows anomalies)
    (hi : i ∈ headings rates detail rows anomalies) (hj : j ∈ headings rates detail rows anomalies)
    (hkey : i.key rates detail = j.key rates detail) :
    standing rates detail rows anomalies i = standing rates detail rows anomalies j := by
  rw [standing, standing, hkey, h i hi j hj hkey, userID_of_key hkey]

variable (rates detail rows anomalies) in
/-- The comparison tells every two groups apart. -/
def PlacedGroups : Prop :=
  ∀ e ∈ reconciliationValues rates detail rows anomalies,
    ∀ e' ∈ reconciliationValues rates detail rows anomalies,
      e.2.row.place = e'.2.row.place → e.1 = e'.1

theorem Placed.groups (h : Placed rates detail rows anomalies) :
    PlacedGroups rates detail rows anomalies := by
  intro e he e' he' hplace
  obtain ⟨head, hhead, hkey, hstanding⟩ := exists_standing he
  obtain ⟨head', hhead', hkey', hstanding'⟩ := exists_standing he'
  rw [hstanding, hstanding'] at hplace
  rw [← hkey, ← hkey']
  exact h head hhead head' hhead' (inUnits_injective hplace)

theorem exists_group (hi : i ∈ headings rates detail rows anomalies) :
    ∃ e ∈ reconciliationValues rates detail rows anomalies, e.1 = i.key rates detail := by
  obtain ⟨rows', anomalies', hrows, hanomalies, rest, hitems⟩ := exists_order hi
  have hmem : i ∈ keyed rates detail rows anomalies (i.key rates detail) :=
    (keyed_perm hrows hanomalies).mem_iff.mp (hitems ▸ mem_cons_self)
  obtain ⟨s, hs⟩ := (reconciliationGather rates detail).exists_group (mem_keyed.mp hmem).1
  exact ⟨_, hs, rfl⟩

theorem PlacedGroups.items (h : PlacedGroups rates detail rows anomalies)
    (hlabel : OneLabel rates detail rows anomalies) : Placed rates detail rows anomalies := by
  intro i hi j hj hstanding
  obtain ⟨e, he, hei⟩ := exists_group hi
  obtain ⟨e', he', hej⟩ := exists_group hj
  rw [← hei, ← hej]
  refine h e he e' he' ?_
  obtain ⟨head, hhead, hkey, hplace⟩ := exists_standing he
  obtain ⟨head', hhead', hkey', hplace'⟩ := exists_standing he'
  rw [hplace, hplace', hlabel.standing_eq hhead hi (hkey.trans hei), hstanding,
    hlabel.standing_eq hhead' hj (hkey'.trans hej)]

/-! ### The report -/

/-- The key that the fields of a row make up. -/
def ReconciliationRow.key (detail : Bool) (a : ReconciliationRow) : String :=
  if detail then formatInt a.userID ++ "\x00" ++ a.day ++ "\x00" ++ a.modelName ++ "\x00" ++
    a.groupName
  else formatInt a.userID

theorem key_row (he : e ∈ reconciliationValues rates detail rows anomalies) :
    e.2.row.key detail = e.1 := by
  obtain ⟨head, rest, hitems, huser, hlabels, -⟩ := exists_head he
  simp only [Acc.labels, Prod.ext_iff] at hlabels
  rw [← key_head hitems, ReconciliationRow.key, key]
  simp only [Acc.row, huser, hlabels.1, hlabels.2.1, hlabels.2.2]

/-- A row tells its group. -/
theorem find_key_row (he : e ∈ reconciliationValues rates detail rows anomalies) :
    (reconciliationValues rates detail rows anomalies).find (e.2.row.key detail) = some e := by
  rw [key_row he]
  exact Table.find_eq_some.mpr ⟨he, rfl⟩

/-- The comparison of groups. -/
abbrev groupNotAfter (e e' : String × Acc) : Prop := notAfter e.2.row e'.2.row

theorem report_rows (order : List (String × Acc)) :
    (reportOf (order.map Prod.snd)).rows = (order.insertionSort groupNotAfter).map fun e =>
      e.2.row := by
  rw [reportOf_eq, map_map]
  exact (map_insertionSort groupNotAfter notAfter (fun e => e.2.row) order fun _ _ _ _ =>
    Iff.rfl).symm

/-- Every order of the map gives the same report exactly where no two groups have one
place. -/
theorem reportOf_perm_iff {groups : Gather.Groups String Acc}
    (hgroups : groups = reconciliationValues rates detail rows anomalies) :
    (∀ order : List (String × Acc), order.Perm groups.rows →
      reportOf (order.map Prod.snd) = reportOf (groups.rows.map Prod.snd)) ↔
    PlacedGroups rates detail rows anomalies := by
  have hsort := insertionSort_eq_iff (r := groupNotAfter) groups.rows
  rw [PlacedGroups, ← hgroups]
  constructor
  · intro hsame e he e' he' hplace
    have hrank := rank_eq_iff.mpr hplace
    refine congrArg Prod.fst (hsort.mp (fun order horder => ?_) e he e' he'
      (notAfter_iff.mpr hrank.le) (notAfter_iff.mpr hrank.ge))
    -- the rows are the same, and each of them tells its group
    have hrows := congrArg ReconciliationReport.rows (hsame order horder)
    rw [report_rows, report_rows] at hrows
    have hfind : ∀ l : List (String × Acc), l.Perm groups.rows →
        ((l.insertionSort groupNotAfter).map fun e => e.2.row).map
          (fun row => groups.find (row.key detail)) =
          (l.insertionSort groupNotAfter).map some := by
      intro l hl
      rw [map_map]
      refine map_congr_left fun e he => ?_
      have hmem : e ∈ groups := Table.mem_def.mpr (hl.mem_iff.mp ((mem_insertionSort _).mp he))
      subst hgroups
      exact find_key_row hmem
    have hback := congrArg (List.map fun row => groups.find (ReconciliationRow.key detail row))
      hrows
    rw [hfind order horder, hfind _ (List.Perm.refl _)] at hback
    exact map_injective_iff.mpr (Option.some_injective _) hback
  · intro hplaces order horder
    have hsorted : order.insertionSort groupNotAfter = groups.rows.insertionSort groupNotAfter := by
      refine hsort.mpr (fun e he e' he' hle hge => ?_) order horder
      have hrank := le_antisymm (notAfter_iff.mp hle) (notAfter_iff.mp hge)
      exact Table.eq_of_key he he' (hplaces e he e' he' (rank_eq_iff.mp hrank))
    have hrows : (reportOf (order.map Prod.snd)).rows =
        (reportOf (groups.rows.map Prod.snd)).rows := by
      rw [report_rows, report_rows, hsorted]
    rw [reportOf_eq, reportOf_eq, ReconciliationReport.mk.injEq]
    exact ⟨hrows, totals_perm (horder.map Prod.snd)⟩

variable (rates detail rows anomalies) in
/-- Whatever the order of the input and of the map, the report is the same. -/
def Reproducible : Prop :=
  ∀ rows' anomalies' report report', rows'.Perm rows → anomalies'.Perm anomalies →
    BuildReconciliation rates detail rows anomalies report →
    BuildReconciliation rates detail rows' anomalies' report' → report' = report

theorem build_self : BuildReconciliation rates detail rows anomalies
    (reportOf ((reconciliationValues rates detail rows anomalies).rows.map Prod.snd)) :=
  ⟨_, List.Perm.refl _, rfl⟩

theorem Reproducible.placed (h : Reproducible rates detail rows anomalies) :
    PlacedGroups rates detail rows anomalies :=
  (reportOf_perm_iff rfl).mp fun order horder =>
    h rows anomalies _ _ (List.Perm.refl _) (List.Perm.refl _) build_self ⟨order, horder, rfl⟩

section Orders
variable {rows₁ rows₂ : List AggregateRow} {anomalies₁ anomalies₂ : List AnomalyCount}

/-- Where the report is always the same, a key has the same labels in every order. -/
theorem Reproducible.labels_eq (h : Reproducible rates detail rows anomalies)
    (hrows₁ : rows₁.Perm rows) (hrows₂ : rows₂.Perm rows) (hanomalies₁ : anomalies₁.Perm anomalies)
    (hanomalies₂ : anomalies₂.Perm anomalies) {e₁ e₂ : String × Acc}
    (h₁ : e₁ ∈ reconciliationValues rates detail rows₁ anomalies₁)
    (h₂ : e₂ ∈ reconciliationValues rates detail rows₂ anomalies₂) (hkey : e₁.1 = e₂.1) :
    e₁.2.labels = e₂.2.labels := by
  have hreports := (h _ _ _ _ hrows₁ hanomalies₁ build_self build_self).trans
    (h _ _ _ _ hrows₂ hanomalies₂ build_self build_self).symm
  have hrows := congrArg ReconciliationReport.rows hreports
  rw [report_rows, report_rows] at hrows
  have hmem : e₁.2.row ∈ ((reconciliationValues rates detail rows₁ anomalies₁).rows.insertionSort
      groupNotAfter).map fun e => e.2.row :=
    mem_map.mpr ⟨e₁, (mem_insertionSort _).mpr h₁, rfl⟩
  rw [hrows] at hmem
  obtain ⟨e, he, hrow⟩ := mem_map.mp hmem
  have he : e ∈ reconciliationValues rates detail rows₂ anomalies₂ := (mem_insertionSort _).mp he
  have hsame : e.1 = e₂.1 := by rw [← key_row he, hrow, key_row h₁, hkey]
  rw [← Table.eq_of_key he h₂ hsame]
  have hfields := congrArg (fun r : ReconciliationRow => (r.day, r.modelName, r.groupName)) hrow
  exact hfields.symm

end Orders

/-- The group of an item that comes first has its labels. -/
theorem exists_group_of_head {rest : List ReconciliationItem}
    (h : keyed rates detail rows anomalies (i.key rates detail) = i :: rest) :
    ∃ e ∈ reconciliationValues rates detail rows anomalies,
      e.1 = i.key rates detail ∧ e.2.labels = i.labels rates detail := by
  obtain ⟨e, he, hkey⟩ := exists_group (head_mem_headings (by rw [h]; rfl))
  obtain ⟨head, _, hitems, -, hlabels, -⟩ := exists_head he
  rw [hkey, h, List.cons.injEq] at hitems
  exact ⟨e, he, hkey, hitems.1 ▸ hlabels⟩

theorem Reproducible.oneLabel (h : Reproducible rates detail rows anomalies) :
    OneLabel rates detail rows anomalies := by
  intro i hi j hj hkey
  obtain ⟨_, _, hrows₁, hanomalies₁, _, hfirst⟩ := exists_order hi
  obtain ⟨_, _, hrows₂, hanomalies₂, _, hfirst'⟩ := exists_order hj
  obtain ⟨e, he, hekey, helabels⟩ := exists_group_of_head hfirst
  obtain ⟨e', he', hekey', helabels'⟩ := exists_group_of_head hfirst'
  rw [← helabels, ← helabels']
  exact h.labels_eq hrows₁ hrows₂ hanomalies₁ hanomalies₂ he he'
    (hekey.trans (hkey.trans hekey'.symm))

theorem OneLabel.reproducible (h : OneLabel rates detail rows anomalies) (hnames : OneName rows)
    (hplaced : PlacedGroups rates detail rows anomalies) :
      Reproducible rates detail rows anomalies := by
  intro rows' anomalies' report report' hrows hanomalies hreport hreport'
  obtain ⟨order, horder, rfl⟩ := hreport
  obtain ⟨order', horder', rfl⟩ := hreport'
  rw [(reportOf_perm_iff rfl).mpr hplaced order horder]
  exact (reportOf_perm_iff rfl).mpr hplaced order'
    (horder'.trans (h.values_perm hnames hrows hanomalies))

/-- In every report the amounts add up: in a group, over the groups and over the groups of
a user. The report does not depend on the order of its input or of its map exactly where
the labels of a key do not, and items of two keys differ in what the comparison looks at. -/
theorem reconciliation_reproducible_iff (rates : Rates) (detail : Bool) (rows : List AggregateRow)
    (anomalies : List AnomalyCount) (hnames : OneName rows) :
    (∀ e ∈ reconciliationValues rates detail rows anomalies,
      e.2.amounts .actual - e.2.amounts .billed =
      e.2.amounts .anomaly + e.2.amounts .cacheWrite + e.2.amounts .residual) ∧
    (∀ order : List (String × Acc),
      order.Perm (reconciliationValues rates detail rows anomalies).rows →
      totalAmounts (order.map Prod.snd) =
        (reconciliationValues rates detail rows anomalies).total fun e => e.2.amounts) ∧
    (∀ e ∈ reconciliationValues rates false rows anomalies,
      e.2.amounts = (reconciliationValues rates true rows anomalies).total fun e' =>
        if e'.2.userID = e.2.userID then e'.2.amounts else 0) ∧
    (Reproducible rates detail rows anomalies ↔
      OneLabel rates detail rows anomalies ∧ Placed rates detail rows anomalies) := by
  refine ⟨fun e _ => ?_, fun order horder => ?_, fun e he => user_amounts he,
    fun h => ⟨h.oneLabel, h.placed.items h.oneLabel⟩, fun h => h.1.reproducible hnames h.2.groups⟩
  · simp only [Acc.amounts, residual]
    ring
  · rw [totalAmounts_eq, map_map]
    exact (horder.map _).sum_eq

/-- No prices, ratios or snapshots, and one day. -/
private def plainRates : Rates := ⟨[], [], fun _ => "", fun _ => .error "", fun _ => "2024-03-05"⟩

private def usage (user : Int) (model : String) (quota : Int) : AggregateRow :=
  ⟨user, "u", model, "default", 0, 0, 1, 0, 0, 0, quota, 0, 0, 0⟩

/-- Two models of one user and day, of which one has an anomaly. -/
private def twoModels : List AggregateRow := [usage 1 "a" 500000, usage 1 "b" 1000000]

private def oneAnomaly : List AnomalyCount := [⟨1, 0, "b", "default", 1, "2"⟩]

theorem reconciliation_reproducible_anomaly :
    OneName twoModels ∧
      (reconciliationValues plainRates true twoModels oneAnomaly).rows.length = 2 ∧
      Reproducible plainRates true twoModels oneAnomaly := by
  have hnames : OneName twoModels := by
    unfold OneName
    decide
  have hlabel : OneLabel plainRates true twoModels oneAnomaly := by
    unfold OneLabel
    decide +kernel
  have hplaced : Placed plainRates true twoModels oneAnomaly := by
    unfold Placed
    decide +kernel
  exact ⟨hnames, by decide +kernel,
    (reconciliation_reproducible_iff plainRates true twoModels oneAnomaly hnames).2.2.2.mpr ⟨hlabel,
      hplaced⟩⟩

/-- Two models of one user and day, with no difference: either may come first. -/
theorem reconciliation_two_orders :
    ∃ report report', BuildReconciliation plainRates true [usage 1 "a" 0, usage 1 "b" 0] [] report ∧
      BuildReconciliation plainRates true [usage 1 "a" 0, usage 1 "b" 0] [] report' ∧
      report.rows.map (·.modelName) = ["b", "a"] ∧ report'.rows.map (·.modelName) = ["a", "b"] :=
  ⟨_, _, ⟨_, List.Perm.refl _, rfl⟩, ⟨_, reverse_perm _, rfl⟩, by decide +kernel, by decide +kernel⟩

end ControlTower.Billing
