import ControlTower.Billing.Settlement
import ControlTower.Data.Table

/-! The store of discount rules: what the handler lets through, and the writes that
keep two rules of one key apart.

A rule is inserted or edited under an overlap test, removed, or copied to another
upstream when its own is merged into that one. The tests take December 31, 9999 for
the end of a rule that has none. -/
namespace ControlTower.Billing
open Go Data

/-- A row of `billing_discount_rules`. -/
structure DiscountRule where
  id : Int
  instanceId : String
  discountType : DiscountType
  subjectId : Int
  channelId : Int
  modelName : String
  discount : String
  effectiveFrom : Time
  effectiveTo : Option Time
  deriving DecidableEq, Repr

/-- The body of a request to save a rule. `discountType` is `none` for a text that names no type. -/
structure DiscountRequest where
  id : Int
  instanceId : String
  discountType : Option DiscountType
  subjectId : Int
  channelId : Int
  modelName : String
  discount : String
  effectiveFrom : Time
  effectiveTo : Option Time

inductive DiscountErr
  | invalidDiscount
  | channelDiscountFullPrice
  | discountChannelRequired
  | discountModelRequired
  | invalidDiscountType
  | discountIdRequired
  | targetNotFound
  | outOfRange
  | discountOverlap
  | upstreamRevisionConflict
  | upstreamTransferConflict
  | upstreamInUse
  | upstreamBillingBusy
  deriving DecidableEq, Repr

/-- The checks of the handler. `post` tells a new rule from an edit. -/
def DiscountRequest.checked (v : DiscountRequest) (post : Bool) : Except DiscountErr DiscountRule := do
  let instanceId := trimSpace v.instanceId
  let modelName := trimSpace v.modelName
  let d ← found .invalidDiscount (ratSetString v.discount)
  refuse .invalidDiscount (instanceId == "" || decide (v.subjectId ≤ 0) || decide (d < 0) || decide (1 < d) ||
    v.effectiveFrom.isZero || v.effectiveTo.any fun till => decide (till ≤ v.effectiveFrom))
  let discountType ← found .invalidDiscountType v.discountType
  refuse .channelDiscountFullPrice (discountType == .upstreamChannel && d == 1)
  refuse .discountChannelRequired (discountType == .upstreamChannel && decide (v.channelId ≤ 0))
  refuse .discountModelRequired (discountType == .userModel && modelName == "")
  refuse .discountIdRequired (!post && decide (v.id ≤ 0))
  return { id := if post then 0 else v.id
           instanceId := instanceId
           discountType := discountType
           subjectId := v.subjectId
           channelId := if discountType = .userModel then 0 else v.channelId
           modelName := if discountType = .upstreamChannel then "" else modelName
           discount := v.discount
           effectiveFrom := v.effectiveFrom
           effectiveTo := v.effectiveTo }

/-! ### Columns -/

/-- A `DATETIME(6)` column keeps microseconds, halves rounded up. -/
def column (t : Time) : Time := (t + 500) / 1000 * 1000

/-- The driver writes years 1 to 9999 and the column ends with the last of them. -/
def storable (t : Time) : Bool := decide (Time.zero ≤ t) && decide (column t < 253402300800000000000)

/-- A `DECIMAL(12,6)` column reads decimals with an exponent, and keeps six places. -/
def decimalColumn (text : String) : Option String :=
  if text.toList.all fun c => c.isDigit || c ∈ ['+', '-', '.', 'e', 'E'] then
    (ratSetString text).map (floatString · 6)
  else none

/-- `DATE('9999-12-31')`. -/
def lastDay : Time := 253402214400000000000

namespace DiscountRule

variable (r : DiscountRule)

/-- The columns that a rule shares with the rules it must stay apart from. -/
def key : String × DiscountType × Int × Int × String :=
  (r.instanceId, r.discountType, r.subjectId, r.channelId, r.modelName)

/-- `COALESCE(effective_to,DATE('9999-12-31'))`. -/
def till : Time := r.effectiveTo.getD lastDay

/-- The test of both queries. -/
def overlaps (r s : DiscountRule) : Bool :=
  decide (r.effectiveFrom < s.till) && decide (s.effectiveFrom < r.till)

def stored : DiscountRule :=
  { r with
    discount := (decimalColumn r.discount).getD ""
    effectiveFrom := column r.effectiveFrom
    effectiveTo := r.effectiveTo.map column }

/-- The rule as a statement reads it. -/
def statement : StatementDiscount where
  discountType := r.discountType
  subjectId := r.subjectId
  channelId := r.channelId
  modelName := r.modelName
  discount := r.discount
  effectiveFrom := r.effectiveFrom
  effectiveTo := r.effectiveTo
  sourceRuleId := r.id

end DiscountRule

structure Upstream where
  id : Int
  instanceId : String
  revision : Int
  archived : Bool

/-- A row of `billing_upstream_channel_bindings`: a channel of a site has one upstream. -/
structure Binding where
  instanceId : String
  upstreamId : Int
  channelId : Int

def Binding.key (b : Binding) : String × Int := (b.instanceId, b.channelId)

/-- The tables that the rule writes read. `nextId` is the counter of the rules' key. -/
structure DiscountStore where
  rules : Table DiscountRule.id
  nextId : Int
  positive : 0 < nextId
  fresh : ∀ r ∈ rules, 0 < r.id ∧ r.id < nextId
  upstreams : Table Upstream.id
  bindings : Table Binding.key

namespace DiscountStore
variable (s : DiscountStore) (site : String)

def bound (upstream channel : Int) : List Binding :=
  s.bindings.rows.filter fun b => b.instanceId == site && b.upstreamId == upstream && b.channelId == channel

/-- `INSERT`: the counter gives the key. -/
def insert (r : DiscountRule) : DiscountStore :=
  { s with
    rules := s.rules.put { r with id := s.nextId }
    nextId := s.nextId + 1
    positive := Int.lt_trans s.positive (Int.lt_succ s.nextId)
    fresh := by
      intro a ha
      rcases Table.mem_put.mp ha with rfl | ⟨ha, -⟩
      · exact ⟨s.positive, Int.lt_succ s.nextId⟩
      · exact ⟨(s.fresh a ha).1, Int.lt_trans (s.fresh a ha).2 (Int.lt_succ s.nextId)⟩ }

/-- `UPDATE` of a row that is there. -/
def edit (old r : DiscountRule) (h : old ∈ s.rules) (hid : r.id = old.id) : DiscountStore :=
  { s with
    rules := s.rules.put r
    fresh := by
      intro a ha
      rcases Table.mem_put.mp ha with rfl | ⟨ha, -⟩
      · exact hid ▸ s.fresh old h
      · exact s.fresh a ha }

def putBillingDiscountRule (v : DiscountRule) : Except DiscountErr DiscountStore := do
  refuse .targetNotFound
    (v.discountType == .upstreamChannel && (s.bound v.instanceId v.subjectId v.channelId).length != 1)
  refuse .outOfRange (!storable v.effectiveFrom || (v.effectiveTo.any fun till => !storable till) ||
    (decimalColumn v.discount).isNone)
  let v := v.stored
  refuse .discountOverlap (s.rules.rows.any fun r => r.key == v.key && r.id != v.id && r.overlaps v)
  if v.id = 0 then
    return s.insert v
  else
    match h : s.rules.find v.id with
    | none => .error .targetNotFound
    | some old =>
      if old.key = v.key then
        return s.edit old { old with discount := v.discount, effectiveFrom := v.effectiveFrom,
                                     effectiveTo := v.effectiveTo } (Table.find_eq_some.mp h).1 rfl
      else .error .targetNotFound

def deleteBillingDiscountRule (id : Int) : Except DiscountErr DiscountStore := do
  refuse .targetNotFound (!s.rules.rows.any fun r => r.instanceId == site && r.id == id)
  return { s with
    rules := s.rules.keep fun r => !(r.instanceId == site && r.id == id)
    fresh := fun r hr => s.fresh r (Table.mem_keep.mp hr).1 }

/-- The rules that a merge copies: those of the channels bound to the source, once for
each binding that the join finds. -/
def copies (id target : Int) : List DiscountRule :=
  s.rules.rows.flatMap fun r =>
    if r.instanceId = site ∧ r.discountType = .upstreamChannel ∧ r.subjectId = id then
      (s.bound site id r.channelId).map fun _ => { r with subjectId := target }
    else []

/-- A rule of a bound channel of the source and a rule of the target that overlap. -/
def mergeOverlaps (id target : Int) : Bool :=
  s.rules.rows.any fun a => s.rules.rows.any fun b =>
    a.instanceId == site && a.discountType == .upstreamChannel && a.subjectId == id &&
    !(s.bound site id a.channelId).isEmpty &&
    b.subjectId == target && b.instanceId == a.instanceId && b.discountType == a.discountType &&
    b.channelId == a.channelId && b.modelName == a.modelName && a.overlaps b

def rebind (id target : Int) : DiscountStore :=
  { s with
    bindings := s.bindings.modify
      (fun b => if b.instanceId = site ∧ b.upstreamId = id then { b with upstreamId := target } else b)
      (fun b => by split <;> rfl) }

def bumpRevision (id : Int) (archive : Bool) : DiscountStore :=
  { s with
    upstreams := s.upstreams.modify
      (fun u => if u.id = id then { u with revision := u.revision + 1, archived := u.archived || archive } else u)
      (fun u => by split <;> rfl) }

/-- `DELETE FROM billing_upstreams`, and the bindings with it. -/
def dropUpstream (id : Int) : DiscountStore :=
  { s with upstreams := s.upstreams.keep (·.id != id), bindings := s.bindings.keep (·.upstreamId != id) }

def live (id : Int) : Option Upstream :=
  s.upstreams.rows.find? fun u => u.instanceId == site && !u.archived && u.id == id

/-- The part of a removal that moves the rules and the channels to the target. -/
def transfer (id target : Int) : Except DiscountErr DiscountStore := do
  refuse .discountOverlap (s.mergeOverlaps site id target)
  return (((s.copies site id target).foldl insert s).rebind site id target).bumpRevision target false

/-- A removal without a target moves nothing. -/
def merge (id target : Int) : Option Upstream → Except DiscountErr DiscountStore
  | none => .ok s
  | some _ => s.transfer site id target

/-- `busy`: a running job bills one of the two upstreams. `history`: statements or
generation tasks name the source. -/
def removeBillingUpstream (id revision target targetRevision : Int) (busy history : Bool) :
    Except DiscountErr DiscountStore := do
  let source ← found .targetNotFound (s.live site id)
  refuse .upstreamRevisionConflict (decide (revision ≤ 0) || source.revision != revision)
  let dest := s.live site target
  refuse .upstreamTransferConflict (target != 0 && (dest.isNone || target == id))
  refuse .upstreamRevisionConflict (dest.any fun d => d.revision != targetRevision)
  refuse .upstreamInUse
    (dest.isNone && s.bindings.rows.any fun b => b.instanceId == site && b.upstreamId == id)
  refuse .upstreamBillingBusy busy
  let moved ← s.merge site id target dest
  if history || moved.rules.rows.any fun r =>
      r.instanceId == site && r.discountType == .upstreamChannel && r.subjectId == id then
    return moved.bumpRevision id true
  else return moved.dropUpstream id

/-- No rules, and any upstreams. -/
def start (upstreams : Table Upstream.id) (bindings : Table Binding.key) : DiscountStore where
  rules := Table.empty
  nextId := 1
  positive := Int.one_pos
  fresh := fun _ hr => nomatch hr
  upstreams := upstreams
  bindings := bindings

/-- The rules of a site, as statements read them. -/
def statements : List StatementDiscount :=
  (s.rules.rows.filter (·.instanceId == site)).map DiscountRule.statement

end DiscountStore

/-! ### Runs -/

/-- A request to the rules, or a change of the upstreams and their channels by the
requests that manage those. -/
inductive DiscountAction
  | put (v : DiscountRequest) (post : Bool)
  | delete (site : String) (id : Int)
  | remove (site : String) (id revision target targetRevision : Int) (busy history : Bool)
  | configure (upstreams : Table Upstream.id) (bindings : Table Binding.key)

namespace DiscountStore

def apply (s : DiscountStore) : DiscountAction → Except DiscountErr DiscountStore
  | .put v post => do
    let v ← v.checked post
    s.putBillingDiscountRule v
  | .delete site id => s.deleteBillingDiscountRule site id
  | .remove site id revision target targetRevision busy history =>
    s.removeBillingUpstream site id revision target targetRevision busy history
  | .configure upstreams bindings => .ok { s with upstreams := upstreams, bindings := bindings }

/-- A request that is refused leaves everything as it was. -/
def step (s : DiscountStore) (a : DiscountAction) : DiscountStore := (s.apply a).toOption.getD s

def run (s : DiscountStore) (actions : List DiscountAction) : DiscountStore := actions.foldl step s

end DiscountStore

end ControlTower.Billing
