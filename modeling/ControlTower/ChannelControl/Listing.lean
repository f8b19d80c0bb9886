import Mathlib.Data.List.Sort
import ControlTower.Data.Dialogue

/-! The list of channels, read page by page.

The remote serves its channels by decreasing id, a hundred to a page, while channels are
added and removed. `List` stops with an error when the total changes or an id comes
twice. Where the total at two reads is the same, as many channels were added as removed,
and the added ones all stand in front: a channel that was there all the time can only
have moved back, so a page that did not show it still has it before it. -/
namespace ControlTower.ChannelControl
open Data List Option
open Dialogue (ask ret Leads)

structure Channel where
  id : Int
  name : String
  status : Int
  weight : Nat
  priority : Int
  models : String
  group : String
  deriving DecidableEq

/-! ### The remote -/

/-- The channels of the remote: by decreasing id, and ids are positive. -/
structure Remote where
  channels : List Channel
  ordered : channels.Pairwise fun a b => b.id < a.id
  positive : ∀ c ∈ channels, 0 < c.id

inductive Change
  | add (c : Channel)
  | remove (id : Int)
  | edit (c : Channel)

namespace Remote

variable (r : Remote)

/-- A channel is added with an id above all others; with another id it is not added. -/
def add (c : Channel) : Remote :=
  if h : (∀ x ∈ r.channels, x.id < c.id) ∧ 0 < c.id then
    ⟨c :: r.channels, pairwise_cons.mpr ⟨h.1, r.ordered⟩, forall_mem_cons.mpr ⟨h.2, r.positive⟩⟩
  else r

def remove (id : Int) : Remote :=
  ⟨r.channels.filter fun c => c.id ≠ id, r.ordered.filter _, fun c hc => r.positive c (mem_filter.mp hc).1⟩

@[simp] theorem id_edited (c x : Channel) : (if x.id = c.id then c else x).id = x.id := by
  split
  · next h => exact h.symm
  · rfl

def edit (c : Channel) : Remote where
  channels := r.channels.map fun x => if x.id = c.id then c else x
  ordered := by
    rw [pairwise_map]
    simpa only [id_edited] using r.ordered
  positive := by
    simp only [List.forall_mem_map, id_edited]
    exact r.positive

def apply : Change → Remote
  | .add c => r.add c
  | .remove id => r.remove id
  | .edit c => r.edit c

def page (p : Nat) : List Channel := (r.channels.drop (100 * (p - 1))).take 100

/-- There is a channel with the id. -/
def Has (id : Int) : Prop := ∃ c ∈ r.channels, c.id = id

/-- How many channels stand before the id. -/
def index (id : Int) : Nat := r.channels.countP fun c => id < c.id

end Remote

/-! ### The call -/

inductive Error
  | token
  | adminUserID
  | request
  | unsuccessful (message : String)
  | missing
  | changed
  | incomplete
  | pageLimit
  deriving DecidableEq

/-- The answer to a request for a page: the request fails, is refused, lacks a field, or
has the items and the total. -/
inductive Response
  | failed
  | refused (message : String)
  | missing
  | page (items : List Channel) (total : Int)

inductive Request
  | ensureToken
  | page (p : Nat)

abbrev Answer : Request → Type
  | .ensureToken => Bool
  | .page _ => Response

abbrev Call := Dialogue Request Answer (Except Error (List Channel))

/-- The loop over the items of a page. -/
def collect (items : List Channel) : List Channel → Option (List Channel)
  | [] => some items
  | c :: rest => if c.id ≤ 0 ∨ c.id ∈ items.map Channel.id then none else collect (items ++ [c]) rest

/-- The loop over the pages; `left` of them are left, and no total is negative before the
first. -/
def pages : (left : Nat) → (p : Nat) → List Channel → (expectedTotal : Int) → Call
  | 0, _, _, _ => ret (.error .pageLimit)
  | left + 1, p, items, expectedTotal =>
    ask (.page p) fun
      | .failed => ret (.error .request)
      | .refused message => ret (.error (.unsuccessful message))
      | .missing => ret (.error .missing)
      | .page page total =>
        if 0 ≤ expectedTotal ∧ total ≠ expectedTotal then ret (.error .changed)
        else match collect items page with
          | none => ret (.error .changed)
          | some items =>
            if total < items.length then ret (.error .changed)
            else if items.length = total then ret (.ok items)
            else if page = [] then ret (.error .incomplete)
            else pages left (p + 1) items total

def list (adminUserID : Int) : Call :=
  ask .ensureToken fun
    | false => ret (.error .token)
    | true => if adminUserID ≤ 0 then ret (.error .adminUserID) else pages 10000 1 [] (-1)

/-! ### Runs -/

/-- The remote, and all it was before. -/
structure World where
  remote : Remote
  past : List Remote

def World.move (w : World) (change : Change) : World := ⟨w.remote.apply change, w.past ++ [w.remote]⟩

/-- A request is answered by the remote unless it fails on its way. -/
def serve (w : World) : (q : Request) → Answer q → Answer q × World
  | .page p, .page _ _ => (.page (w.remote.page p) w.remote.channels.length, w)
  | .page _, answer => (answer, w)
  | .ensureToken, answer => (answer, w)

abbrev Turn := Dialogue.Turn Request Answer Change

/-- The channel was there all the time. -/
def World.Lasting (w : World) (id : Int) : Prop := ∀ r ∈ w.past ++ [w.remote], r.Has id

/-! ### How a channel moves -/

namespace Remote

variable {r : Remote} {id : Int}

theorem index_lt (h : r.Has id) : r.index id < r.channels.length := by
  obtain ⟨c, hc, rfl⟩ := h
  refine lt_of_le_of_ne countP_le_length fun heq => ?_
  have := countP_eq_length.mp heq c hc
  simp at this

/-- A channel stands after those with a larger id. -/
theorem get_index (h : r.Has id) : (r.channels[r.index id]?).map Channel.id = some id := by
  obtain ⟨c, hc, rfl⟩ := h
  have hordered := r.ordered
  unfold index
  generalize r.channels = channels at hc hordered
  induction channels with
  | nil => cases hc
  | cons x rest ih =>
    obtain ⟨hfirst, hrest⟩ := pairwise_cons.mp hordered
    rcases mem_cons.mp hc with rfl | hc
    · have hnone : rest.countP (fun y => c.id < y.id) = 0 := by
        rw [countP_eq_zero]
        intro y hy
        simpa using (hfirst y hy).le
      simp [hnone]
    · have hlt := hfirst c hc
      simpa [countP_cons, hlt] using ih hc hrest

/-- What a page does not show of what stands from its start on stands after its end. -/
theorem index_page (h : r.Has id) {k : Nat} (hk : 100 * k ≤ r.index id)
    (hpage : id ∉ (r.page (k + 1)).map Channel.id) : 100 * (k + 1) ≤ r.index id := by
  by_contra hlt
  apply hpage
  obtain ⟨c, hc, hid⟩ := map_eq_some_iff.mp (get_index h)
  refine mem_map.mpr ⟨c, ?_, hid⟩
  rw [mem_iff_getElem?]
  refine ⟨r.index id - 100 * k, ?_⟩
  rw [page, Nat.add_sub_cancel, List.getElem?_take, if_pos (by omega), List.getElem?_drop, Nat.add_sub_cancel' hk]
  exact hc

/-- A change moves a channel back by at least as much as the list grows. -/
theorem index_apply (change : Change) (h : r.Has id) :
    r.index id + (r.apply change).channels.length ≤ (r.apply change).index id + r.channels.length := by
  cases change with
  | add c =>
    simp only [apply, add]
    split
    · next hc =>
      obtain ⟨x, hx, rfl⟩ := h
      have hlt := hc.1 x hx
      simp only [index, length_cons, countP_cons, hlt, decide_true, if_true]
      omega
    · exact le_rfl
  | remove gone =>
    -- what stays are the channels before the id, but for the one that goes, and the others
    have hkept : (r.channels.filter fun c => id < c.id).length + (r.apply (.remove gone)).channels.length ≤
        ((r.apply (.remove gone)).channels.filter fun c => id < c.id).length + r.channels.length := by
      have hsplit := fun l : List Channel => length_eq_length_filter_add (l := l) fun c => decide (id < c.id)
      have hsub : ((r.apply (.remove gone)).channels.filter fun c => !decide (id < c.id)).length ≤
          (r.channels.filter fun c => !decide (id < c.id)).length :=
        (List.Sublist.filter _ filter_sublist).length_le
      have h₁ := hsplit r.channels
      have h₂ := hsplit (r.apply (.remove gone)).channels
      omega
    simpa only [index, countP_eq_length_filter] using hkept
  | edit c => simp [apply, edit, index, countP_map, Function.comp_def]

end Remote

/-! ### What the reads have shown -/

theorem collect_some {items page items' : List Channel} (h : collect items page = some items') (hitems : (items.map Channel.id).Nodup) :
    items' = items ++ page ∧ (items'.map Channel.id).Nodup := by
  induction page generalizing items with
  | nil =>
    cases h
    exact ⟨(append_nil _).symm, hitems⟩
  | cons c rest ih =>
    simp only [collect] at h
    split at h
    · cases h
    · next hc =>
      have hnew : ((items ++ [c]).map Channel.id).Nodup := by
        rw [map_append]
        exact hitems.append (nodup_singleton _) (by simp only [map_singleton, disjoint_singleton]; exact fun hm => hc (.inr hm))
      simpa using ih h hnew

/-- How far the reads have come. -/
structure Progress where
  reads : Nat
  items : List Channel
  total : Int

variable (g : Option Progress)

/-- The progress, unless the total has changed. -/
def advance : (q : Request) → Answer q → Option Progress
  | .page _, .page page total => do
    let g ← g
    if 0 ≤ g.total ∧ total ≠ g.total then none else some ⟨g.reads + 1, g.items ++ page, total⟩
  | _, _ => g

def inOrder : Request → Prop
  | .page p => ∀ read ∈ g, p = read.reads + 1
  | .ensureToken => True

def returns : Except Error (List Channel) → Prop
  | .ok items => (items.map Channel.id).Nodup ∧ ∃ read ∈ g, 0 < read.reads ∧ read.items = items ∧ read.total = items.length
  | .error _ => True

theorem pages_leads (left k : Nat) (items : List Channel) (total : Int) (hitems : (items.map Channel.id).Nodup) :
    (pages left (k + 1) items total).Leads inOrder advance returns (some ⟨k, items, total⟩) := by
  induction left generalizing k items total with
  | zero => trivial
  | succ left ih =>
    refine ⟨fun read hread => by cases hread; rfl, fun answer => ?_⟩
    cases answer with
    | failed => trivial
    | refused message => trivial
    | missing => trivial
    | page page newTotal =>
      simp only [advance, bind_eq_bind, bind_some]
      by_cases htotal : 0 ≤ total ∧ newTotal ≠ total
      · rw [if_pos htotal, if_pos htotal]
        trivial
      · rw [if_neg htotal, if_neg htotal]
        cases hcollect : collect items page with
        | none => trivial
        | some items' =>
          obtain ⟨rfl, hnodup⟩ := collect_some hcollect hitems
          simp only
          split
          · trivial
          · split
            · next hlength => exact ⟨hnodup, _, rfl, Nat.succ_pos _, rfl, hlength.symm⟩
            · split
              · trivial
              · exact ih (k + 1) _ newTotal hnodup

/-- A channel that was there all the time and was not shown stands after all that the
pages have covered, as far as the total is the one they told. -/
structure Covered (read : Progress) (w : World) : Prop where
  length : read.items.length ≤ 100 * read.reads
  told : 0 < read.reads → 0 ≤ read.total
  behind : ∀ id, w.Lasting id → id ∉ read.items.map Channel.id → 0 < read.reads →
    100 * (read.reads : Int) + w.remote.channels.length ≤ w.remote.index id + read.total

variable {w : World}

theorem World.Lasting.has {id : Int} (h : w.Lasting id) : w.remote.Has id := h _ (by simp)

theorem World.Lasting.of_move {id : Int} {change : Change} (h : (w.move change).Lasting id) : w.Lasting id :=
  fun r hr => h r (mem_append_left _ hr)

variable {read : Progress}

theorem Covered.move (h : Covered read w) (change : Change) : Covered read (w.move change) where
  length := h.length
  told := h.told
  behind id hlasting hitems hreads := by
    have hbefore := h.behind id hlasting.of_move hitems hreads
    have hdrift := Remote.index_apply change hlasting.of_move.has
    simp only [World.move] at hdrift ⊢
    omega

/-- The next page, with the same total. -/
theorem Covered.page (h : Covered read w)
    (htotal : ¬ (0 ≤ read.total ∧ (w.remote.channels.length : Int) ≠ read.total)) :
    Covered ⟨read.reads + 1, read.items ++ w.remote.page (read.reads + 1), w.remote.channels.length⟩ w where
  length := by
    have := h.length
    have : (w.remote.page (read.reads + 1)).length ≤ 100 := length_take_le _ _
    simp only [length_append]
    omega
  told _ := Int.natCast_nonneg _
  behind id hlasting hitems _ := by
    simp only [map_append, mem_append, not_or] at hitems
    have hstart : 100 * read.reads ≤ w.remote.index id := by
      rcases Nat.eq_zero_or_pos read.reads with hzero | hreads
      · omega
      · have := h.behind id hlasting hitems.1 hreads
        omega
    have := Remote.index_page hlasting.has hstart hitems.2
    push_cast
    omega

theorem list_leads (adminUserID : Int) : (list adminUserID).Leads inOrder advance returns (some ⟨0, [], -1⟩) := by
  refine ⟨trivial, fun answer => ?_⟩
  cases answer with
  | false => trivial
  | true =>
    split
    · trivial
    · exact pages_leads 10000 0 [] (-1) nodup_nil

theorem covered_serve (w : World) (q : Request) (answer : Answer q) (h : ∀ read ∈ g, Covered read w)
    (hq : inOrder g q) : ∀ read ∈ advance g q (serve w q answer).1, Covered read (serve w q answer).2 := by
  cases q with
  | ensureToken => exact h
  | page p =>
    cases answer with
    | failed => exact h
    | refused message => exact h
    | missing => exact h
    | page items total =>
      intro read hread
      cases g with
      | none => cases hread
      | some before =>
        obtain rfl := hq before rfl
        simp only [serve, advance, bind_eq_bind, bind_some] at hread
        split at hread
        · cases hread
        · next htotal =>
          cases hread
          exact (h before rfl).page htotal

/-- At the end the items are as many as the total, so none stands behind them. -/
theorem Covered.complete (h : Covered read w) (hreads : 0 < read.reads)
    (htotal : read.total = read.items.length) {id : Int} (hlasting : w.Lasting id) : id ∈ read.items.map Channel.id := by
  by_contra hitems
  have := h.behind id hlasting hitems hreads
  have := Remote.index_lt hlasting.has
  have := h.length
  omega

/-! ### A remote that does not change -/

/-- Nothing changes before the request, and it is answered. -/
def Quiet (turn : Turn) : Prop :=
  turn.events = [] ∧ turn.answer .ensureToken = true ∧ ∀ p, ∃ items total, turn.answer (.page p) = .page items total

theorem collect_append {items page : List Channel} (hpositive : ∀ c ∈ page, 0 < c.id)
    (hnodup : ((items ++ page).map Channel.id).Nodup) : collect items page = some (items ++ page) := by
  induction page generalizing items with
  | nil => simp [collect]
  | cons c rest ih =>
    obtain ⟨hc, hrest⟩ := forall_mem_cons.mp hpositive
    have hnew : c.id ∉ items.map Channel.id := by
      intro hm
      rw [map_append, map_cons] at hnodup
      exact (disjoint_of_nodup_append hnodup) hm mem_cons_self
    rw [collect, if_neg (not_or.mpr ⟨not_le.mpr hc, hnew⟩)]
    have hrestnodup : ((items ++ [c] ++ rest).map Channel.id).Nodup := by rwa [append_assoc, singleton_append]
    rw [ih hrest hrestnodup, append_assoc, singleton_append]

theorem Remote.nodup (r : Remote) : (r.channels.map Channel.id).Nodup :=
  pairwise_map.mpr (r.ordered.imp fun h => (ne_of_lt h).symm)

/-- The page after what was read goes on with it. -/
theorem Remote.take_page (r : Remote) (k : Nat) : r.channels.take (100 * k) ++ r.page (k + 1) = r.channels.take (100 * (k + 1)) := by
  rw [page, Nat.add_sub_cancel, ← take_add, Nat.mul_add_one]

theorem pages_quiet {r : Remote} (hw : w.remote = r) (left k : Nat) (total : Int) (turns : List Turn)
    (hquiet : ∀ turn ∈ turns, Quiet turn) (hleft : left ≤ turns.length) (hlimit : r.channels.length ≤ 100 * (k + left)) (hpos : 0 < left)
    (htotal : k = 0 ∧ total = -1 ∨ 100 * k < r.channels.length ∧ total = r.channels.length) :
    (pages left (k + 1) (r.channels.take (100 * k)) total).outcome World.move serve w turns = (some (.ok r.channels), w) := by
  induction left generalizing k total turns with
  | zero => omega
  | succ left ih =>
    cases turns with
    | nil => simp at hleft
    | cons turn turns =>
      obtain ⟨hturn, hturns⟩ := forall_mem_cons.mp hquiet
      obtain ⟨items, told, hanswer⟩ := hturn.2.2 (k + 1)
      have hcollect : collect (r.channels.take (100 * k)) (r.page (k + 1)) = some (r.channels.take (100 * (k + 1))) := by
        rw [← r.take_page]
        apply collect_append
        · exact fun c hc => r.positive c (mem_of_mem_drop (mem_of_mem_take hc))
        · rw [r.take_page]
          exact r.nodup.sublist ((take_sublist _ _).map _)
      have hsame : ¬ (0 ≤ total ∧ (r.channels.length : Int) ≠ total) := by omega
      simp only [pages, Dialogue.outcome, hturn.1, foldl_nil, hanswer, serve, hw, hsame, if_false, hcollect]
      by_cases hdone : r.channels.length ≤ 100 * (k + 1)
      · rw [take_of_length_le hdone]
        simp [Dialogue.outcome]
      · have hlength : (r.channels.take (100 * (k + 1))).length = 100 * (k + 1) := by
          rw [length_take]; omega
        have hpage : r.page (k + 1) ≠ [] := by
          rw [Remote.page, Nat.add_sub_cancel, Ne, take_eq_nil_iff, drop_eq_nil_iff]
          omega
        rw [hlength, if_neg (by omega), if_neg (by omega), if_neg hpage]
        refine ih (k + 1) _ turns hturns ?_ ?_ ?_ ?_
        · simpa using hleft
        · omega
        · by_contra hzero
          omega
        · exact .inr ⟨by omega, rfl⟩

/-- A list that is returned has no id twice and every channel that was there during the
whole call; and where nothing changes and no request fails, the list is returned and is
the remote's. -/
theorem list_complete (adminUserID : Int) (r : Remote) (turns : List Turn) :
    (∀ items, ((list adminUserID).outcome World.move serve ⟨r, []⟩ turns).1 = some (.ok items) →
      (items.map Channel.id).Nodup ∧
        ∀ id, ((list adminUserID).outcome World.move serve ⟨r, []⟩ turns).2.Lasting id → id ∈ items.map Channel.id) ∧
    (0 < adminUserID → r.channels.length ≤ 1000000 → (∀ turn ∈ turns, Quiet turn) → 10001 ≤ turns.length →
      (list adminUserID).outcome World.move serve ⟨r, []⟩ turns = (some (.ok r.channels), ⟨r, []⟩)) := by
  constructor
  · intro items hitems
    have hinit : ∀ read ∈ some (⟨0, [], -1⟩ : Progress), Covered read ⟨r, []⟩ := by
      intro read hread
      cases hread
      exact ⟨le_rfl, fun h => absurd h (lt_irrefl 0), fun _ _ _ h => absurd h (lt_irrefl 0)⟩
    obtain ⟨g, hcovered, hdone⟩ := Leads.outcome (fun g w change h read hread => (h read hread).move change) covered_serve
      (list_leads adminUserID) turns hinit
    obtain ⟨hnodup, read, hread, hreads, rfl, htotal⟩ := hdone _ hitems
    exact ⟨hnodup, fun id hlasting => (hcovered read hread).complete hreads htotal hlasting⟩
  · intro hadmin hlimit hquiet hturns
    cases turns with
    | nil => simp at hturns
    | cons turn turns =>
      obtain ⟨hturn, hrest⟩ := forall_mem_cons.mp hquiet
      simp only [list, Dialogue.outcome, hturn.1, hturn.2.1, foldl_nil, serve, not_le.mpr hadmin, if_false]
      exact pages_quiet rfl 10000 0 (-1) turns hrest (by simpa using hturns) hlimit (by omega) (.inl ⟨rfl, rfl⟩)

/-- Channels with the ids up to `n`. -/
private def numbered (n : Nat) : List Channel :=
  (List.range n).map fun i => ⟨n - i, "a", 1, 1, 0, "m", "default"⟩

private def many : Remote where
  channels := numbered 102
  ordered := by decide +kernel
  positive := by decide +kernel

private def calm : Turn := ⟨[], fun | .ensureToken => true | .page _ => .page [] 0⟩

/-- Before the second page is read a channel is added and one of the first page removed. -/
private def churn : List Turn :=
  [calm, calm, ⟨[.add ⟨103, "b", 1, 1, 0, "m", "default"⟩, .remove 60], calm.answer⟩]

private def churned : Option (Except Error (List Channel)) × World :=
  (list 1).outcome World.move serve ⟨many, []⟩ churn

theorem list_complete_pages :
    churned.1 = some (.ok many.channels) ∧ churned.2.remote.channels ≠ many.channels ∧
      (∀ id, churned.2.Lasting id → id ∈ many.channels.map Channel.id) ∧ churned.2.Lasting 1 ∧
      (list 1).outcome World.move serve ⟨many, []⟩ (List.replicate 10001 calm) =
        (some (.ok many.channels), ⟨many, []⟩) := by
  have hquiet : ∀ turn ∈ List.replicate 10001 calm, Quiet turn := fun turn hturn => by
    rw [eq_of_mem_replicate hturn]
    exact ⟨rfl, rfl, fun _ => ⟨_, _, rfl⟩⟩
  have hreturned : churned.1 = some (.ok many.channels) := by decide +kernel
  have hlasting : churned.2.Lasting 1 := by
    unfold World.Lasting Remote.Has
    decide +kernel
  exact ⟨hreturned, by decide +kernel, ((list_complete 1 many churn).1 _ hreturned).2, hlasting,
    (list_complete 1 many _).2 (by decide) (by decide +kernel) hquiet (by rw [length_replicate])⟩

end ControlTower.ChannelControl
