import ControlTower.Data.Table
import Mathlib.Data.Nat.Log
import Mathlib.Data.Prod.Lex

/-! A page of the source log, read through windows of time.

A window that times out is tried again at half its width; one that answers moves the
lower bound up. What was read before the lower bound is, at every moment, the start of
what a single scan of the whole range would read, so the windows cannot be seen in the
page. -/
namespace ControlTower.Dashboard
open Data List Table

/-- A matching row of the log. -/
structure SourceLog (ρ : Type) where
  id : Int
  createdAt : Int
  fields : ρ
  deriving DecidableEq

structure LogCursor where
  createdUnix : Int
  id : Int
  deriving DecidableEq

def LogCursor.position (c : LogCursor) : Int ×ₗ Int := toLex (c.createdUnix, c.id)

namespace SourceLog
variable {ρ : Type}

def cursor (log : SourceLog ρ) : LogCursor := ⟨log.createdAt, log.id⟩

def position (log : SourceLog ρ) : Int ×ₗ Int := log.cursor.position

theorem id_of_position (a b : SourceLog ρ) (h : a.position = b.position) : a.id = b.id :=
  congrArg (fun p : Int ×ₗ Int => (ofLex p).2) h

end SourceLog

variable {ρ : Type}

/-- The condition of `billingPageFromFilter`, with the arguments of `billingPageRangeArgs`. -/
def billingPageRange (start stop : Int) (cursor : LogCursor) (log : SourceLog ρ) : Bool :=
  let lower := max start cursor.createdUnix
  lower ≤ log.createdAt && log.createdAt < stop &&
    (cursor.createdUnix < log.createdAt ||
      (log.createdAt = cursor.createdUnix && cursor.id < log.id))

variable (logs : Table (SourceLog.id (ρ := ρ)))

/-- The rows of a range after the cursor. -/
def rangeAfter (start stop : Int) (cursor : LogCursor) : List (SourceLog ρ) :=
  logs.scan SourceLog.position (billingPageRange start stop cursor)

/-! ### The page -/

/-- What becomes of a read: its rows, within a second or not, a query timeout or another
error; or the context ended before it. -/
inductive Reading
  | rows (quick : Bool)
  | timeout
  | failed
  | cancelled
  deriving DecidableEq

inductive PageError
  | permanent
  | source
  | cancelled
  deriving DecidableEq

structure Window where
  lower : Int
  upper : Int
  reading : Reading
  deriving DecidableEq

def maxSpan : Int := 15 * 60

/-- The span after a window was read. -/
def recover (span : Int) (quick : Bool) : Int :=
  if quick ∧ span < maxSpan then min (span * 2) maxSpan else span

variable (ρ) in
/-- What a call returns, unless the readings end before it does, and the windows it read. -/
abbrev PageCall := Option (Except PageError (List (SourceLog ρ))) × List Window

def PageCall.after (window : Window) (call : PageCall ρ) : PageCall ρ := (call.1, window :: call.2)

section Call
variable (stop : Int) (cursor : LogCursor) (limit : Nat)

/-- The loop of `billingWindowPage`. -/
def readWindows : List Reading → (lower span : Int) → List (SourceLog ρ) → PageCall ρ
  | [], lower, _, out =>
    if lower < stop ∧ out.length < limit then (none, []) else (some (.ok out), [])
  | reading :: readings, lower, span, out =>
    if lower < stop ∧ out.length < limit then
      let upper := min (lower + span) stop
      let window := ⟨lower, upper, reading⟩
      match reading with
      | .cancelled => (some (.error .cancelled), [])
      | .failed => (some (.error .source), [window])
      | .timeout =>
        if 1 < upper - lower then
          (readWindows readings lower (max 1 ((upper - lower) / 2)) out).after window
        else (some (.error .permanent), [window])
      | .rows quick =>
        let rows := (rangeAfter logs lower upper cursor).take (limit - out.length)
        (readWindows readings upper (recover span quick) (out ++ rows)).after window
    else (some (.ok out), [])

def billingWindowPage (start : Int) (readings : List Reading) : PageCall ρ :=
  readWindows logs stop cursor limit readings (max start cursor.createdUnix) maxSpan []

end Call

/-- Pages from a cursor on, each from the last row of the one before, until a short page;
a call that fails is made again. With the pages, whether the last of them was short. -/
def billingPages (start stop : Int) (limit : Nat) :
    List (List Reading) → LogCursor → List (List (SourceLog ρ)) × Bool
  | [], _ => ([], false)
  | readings :: calls, cursor =>
    match (billingWindowPage logs stop cursor limit start readings).1 with
    | some (.ok page) =>
      if page.length < limit then ([page], true)
      else
        let rest := billingPages start stop limit calls
          ((page.getLast?.map SourceLog.cursor).getD cursor)
        (page :: rest.1, rest.2)
    | _ => billingPages start stop limit calls cursor

/-! ### Windows side by side -/

variable {logs} {start stop : Int} {cursor : LogCursor} {limit : Nat}

theorem billingPageRange_iff {log : SourceLog ρ} :
    billingPageRange start stop cursor log = true ↔
      (start ≤ log.createdAt ∧ log.createdAt < stop) ∧ cursor.position < log.position := by
  simp only [billingPageRange, SourceLog.position, SourceLog.cursor, LogCursor.position,
    Prod.Lex.toLex_lt_toLex, Bool.and_eq_true,
    Bool.or_eq_true, decide_eq_true_eq]
  omega

theorem mem_rangeAfter {log : SourceLog ρ} :
    log ∈ rangeAfter logs start stop cursor ↔
      log ∈ logs ∧ (start ≤ log.createdAt ∧ log.createdAt < stop) ∧
        cursor.position < log.position := by
  rw [rangeAfter, mem_scan, billingPageRange_iff]

theorem rangeAfter_sorted :
    (rangeAfter logs start stop cursor).Pairwise fun a b => a.position < b.position :=
  scan_sorted SourceLog.id_of_position _ _

theorem rangeAfter_append {lower upper : Int} (hlower : start ≤ lower) (hupper : lower ≤ upper) :
    rangeAfter logs start upper cursor = rangeAfter logs start lower cursor ++
      rangeAfter logs lower upper cursor := by
  refine scan_eq SourceLog.id_of_position ?_ fun log => ?_
  · refine pairwise_append.mpr ⟨rangeAfter_sorted, rangeAfter_sorted, fun a ha b hb => ?_⟩
    have ha := (mem_rangeAfter.mp ha).2.1.2
    have hb := (mem_rangeAfter.mp hb).2.1.1
    exact Prod.Lex.toLex_lt_toLex.mpr (.inl (lt_of_lt_of_le ha hb))
  · rw [List.mem_append, mem_rangeAfter, mem_rangeAfter, billingPageRange_iff]
    constructor
    · rintro (⟨hlog, hrange, hpos⟩ | ⟨hlog, hrange, hpos⟩)
      · exact ⟨hlog, ⟨hrange.1, by omega⟩, hpos⟩
      · exact ⟨hlog, ⟨by omega, hrange.2⟩, hpos⟩
    · rintro ⟨hlog, hrange, hpos⟩
      rcases lt_or_ge log.createdAt lower with hlt | hge
      · exact .inl ⟨hlog, ⟨hrange.1, hlt⟩, hpos⟩
      · exact .inr ⟨hlog, ⟨hge, hrange.2⟩, hpos⟩

/-- No row after the cursor is older than it. -/
theorem rangeAfter_max : rangeAfter logs (max start cursor.createdUnix) stop cursor =
    rangeAfter logs start stop cursor := by
  refine scan_eq SourceLog.id_of_position rangeAfter_sorted fun log => ?_
  rw [mem_rangeAfter, billingPageRange_iff]
  refine and_congr_right fun _ => and_congr_left fun hpos => ?_
  have : cursor.createdUnix ≤ log.createdAt := Prod.Lex.monotone_fst _ _ hpos.le
  omega

theorem rangeAfter_empty (h : stop ≤ start) : rangeAfter logs start stop cursor = [] := by
  refine eq_nil_iff_forall_not_mem.mpr fun log hlog => ?_
  have := (mem_rangeAfter.mp hlog).2.1
  omega

/-- What is left of a range after a page of it. -/
theorem rangeAfter_last {page rest : List (SourceLog ρ)}
    (h : rangeAfter logs start stop cursor = page ++ rest) :
    rangeAfter logs start stop ((page.getLast?.map SourceLog.cursor).getD cursor) = rest := by
  have hscan : ∀ c : LogCursor, rangeAfter logs start stop c =
      logs.scan SourceLog.position fun log => decide (start ≤ log.createdAt ∧
        log.createdAt < stop) && decide (c.position < log.position) := by
    intro c
    unfold rangeAfter
    congr 1
    funext log
    rw [Bool.eq_iff_iff, billingPageRange_iff, Bool.and_eq_true, decide_eq_true_eq,
      decide_eq_true_eq]
  rw [hscan] at h ⊢
  have hposition : ((page.getLast?.map SourceLog.cursor).getD cursor).position =
      (page.getLast?.map SourceLog.position).getD cursor.position := by
    cases page.getLast? <;> rfl
  rw [hposition]
  exact scan_rest SourceLog.id_of_position h

/-! ### One call -/

variable {readings : List Reading} {lower span : Int} {out : List (SourceLog ρ)}

theorem one_le_recover (quick : Bool) (h : 1 ≤ span) : 1 ≤ recover span quick := by
  unfold recover maxSpan
  split <;> omega

theorem readWindows_permanent (hspan : 1 ≤ span)
    (h : (readWindows logs stop cursor limit readings lower span out).1 =
      some (.error .permanent)) :
    ∃ w ∈ (readWindows logs stop cursor limit readings lower span out).2, w.upper - w.lower = 1 ∧
      w.reading = .timeout := by
  fun_induction readWindows logs stop cursor limit readings lower span out with
  | case1 => cases h
  | case2 => cases h
  | case3 => cases h
  | case4 => cases h
  | case5 readings lower span out hopen upper hwide window ih =>
    obtain ⟨w, hw, hone⟩ := ih (le_max_left _ _) h
    exact ⟨w, mem_cons_of_mem _ hw, hone⟩
  | case6 readings lower span out hopen upper hwide window =>
    refine ⟨window, mem_singleton_self _, ?_, rfl⟩
    show upper - lower = 1
    omega
  | case7 readings lower span out hopen upper quick rows window ih =>
    obtain ⟨w, hw, hone⟩ := ih (one_le_recover quick hspan) h
    exact ⟨w, mem_cons_of_mem _ hw, hone⟩
  | case8 => cases h

/-- Every read that does not time out brings the lower bound up by at least a second. -/
theorem readWindows_count (logs : Table (SourceLog.id (ρ := ρ))) (stop : Int) (cursor : LogCursor)
    (limit : Nat) (readings : List Reading)
    (lower : Int) (out : List (SourceLog ρ)) (hspan : 1 ≤ span) :
    (readWindows logs stop cursor limit readings lower span out).2.length ≤
      (stop - lower).toNat + (readWindows logs stop cursor limit readings lower span out).2.countP
        (·.reading = .timeout) := by
  fun_induction readWindows logs stop cursor limit readings lower span out with
  | case1 => exact Nat.zero_le _
  | case2 => exact Nat.zero_le _
  | case3 => exact Nat.zero_le _
  | case4 readings lower span out hopen upper window =>
    rw [length_singleton]
    omega
  | case5 readings lower span out hopen upper hwide window ih =>
    simp only [PageCall.after, length_cons, countP_cons, window, decide_true, if_true]
    omega
  | case6 readings lower span out hopen upper hwide window => simp [window]
  | case7 readings lower span out hopen upper quick rows window ih =>
    have := ih (one_le_recover quick hspan)
    simp only [PageCall.after, length_cons, countP_cons]
    omega
  | case8 => exact Nat.zero_le _

/-- Where the loop stops, the rest of the range cannot be seen. -/
theorem take_of_closed (hlower : start ≤ lower) (hstop : lower ≤ stop)
    (hclosed : ¬ (lower < stop ∧ out.length < limit))
    (hout : out = (rangeAfter logs start lower cursor).take limit) :
      out = (rangeAfter logs start stop cursor).take limit := by
  rcases hstop.lt_or_eq with hlt | rfl
  · have hfull : limit ≤ out.length := not_lt.mp fun hless => hclosed ⟨hlt, hless⟩
    rw [hout, length_take] at hfull
    rw [rangeAfter_append hlower hstop, take_append_of_le_length (by omega)]
    exact hout
  · exact hout

/-- What has been read up to the lower bound is what the range holds up to it, as far as
the limit goes. -/
theorem readWindows_page (hspan : 1 ≤ span) (hlower : start ≤ lower) (hstop : lower ≤ stop)
    (hout : out = (rangeAfter logs start lower cursor).take limit) {page : List (SourceLog ρ)}
    (h : (readWindows logs stop cursor limit readings lower span out).1 = some (.ok page)) :
    page = (rangeAfter logs start stop cursor).take limit := by
  fun_induction readWindows logs stop cursor limit readings lower span out with
  | case1 => cases h
  | case2 span lower out hclosed =>
    cases h
    exact take_of_closed hlower hstop hclosed hout
  | case3 => cases h
  | case4 => cases h
  | case5 readings lower span out hopen upper hwide window ih =>
    exact ih (le_max_left _ _) hlower hstop hout h
  | case6 => cases h
  | case7 readings lower span out hopen upper quick rows window ih =>
    refine ih (one_le_recover quick hspan) (by omega) (by omega) ?_ h
    have hall : out = rangeAfter logs start lower cursor := by
      rw [hout]
      refine take_of_length_le (not_lt.mp fun hless => ?_)
      rw [hout, length_take] at hopen
      omega
    rw [rangeAfter_append hlower (by omega : lower ≤ upper), take_append, ← hall,
      take_of_length_le hopen.2.le]
  | case8 reading readings lower span out hclosed =>
    cases h
    exact take_of_closed hlower hstop hclosed hout

/-- A window is halved at most nine times before it is a second wide. -/
theorem log_span_le {width : Int} (h : width ≤ maxSpan) : Nat.log 2 width.toNat ≤ 9 := by
  have : width.toNat < 2 ^ 10 := by
    unfold maxSpan at h
    omega
  exact Nat.lt_succ_iff.mp (Nat.log_lt_of_lt_pow' (by decide) this)

theorem recover_le_maxSpan (quick : Bool) (h : span ≤ maxSpan) : recover span quick ≤ maxSpan := by
  unfold recover
  split
  · exact min_le_right _ _
  · exact h

/-- Every read takes a second off the range, or halves the window. -/
theorem readWindows_ends (hspan : 1 ≤ span) (hmax : span ≤ maxSpan)
    (h : 11 * (stop - lower).toNat + Nat.log 2 (min span (stop - lower)).toNat < readings.length) :
    (readWindows logs stop cursor limit readings lower span out).1.isSome := by
  fun_induction readWindows logs stop cursor limit readings lower span out with
  | case1 => simp at h
  | case2 => rfl
  | case3 => rfl
  | case4 => rfl
  | case5 readings lower span out hopen upper hwide window ih =>
    -- the window was `min span (stop - lower)` wide, and half of that is the next
    have hwidth : upper - lower = min span (stop - lower) := by omega
    have hhalf : (min (max 1 ((upper - lower) / 2)) (stop - lower)).toNat =
        (upper - lower).toNat / 2 := by omega
    have hlog : 0 < Nat.log 2 (upper - lower).toNat := Nat.log_pos (by decide) (by omega)
    refine ih (le_max_left _ _) (by omega) ?_
    rw [hhalf, Nat.log_div_base]
    rw [← hwidth, length_cons] at h
    omega
  | case6 => rfl
  | case7 readings lower span out hopen upper quick rows window ih =>
    have hmax' := recover_le_maxSpan quick hmax
    have hlog : Nat.log 2 (min (recover span quick) (stop - upper)).toNat ≤ 9 :=
      log_span_le ((min_le_left _ _).trans hmax')
    refine ih (one_le_recover quick hspan) hmax' ?_
    rw [length_cons] at h
    omega
  | case8 => rfl

/-- A call that succeeds returns the first rows of the range after the cursor. -/
theorem billingWindowPage_page {page : List (SourceLog ρ)}
    (h : (billingWindowPage logs stop cursor limit start readings).1 = some (.ok page)) :
    page = (rangeAfter logs start stop cursor).take limit := by
  rw [← rangeAfter_max]
  rcases le_or_gt (max start cursor.createdUnix) stop with hle | hlt
  · refine readWindows_page (by decide) le_rfl hle ?_ h
    rw [rangeAfter_empty le_rfl, take_nil]
  · -- the cursor is past the range, and no window is read
    have hclosed : ∀ out : List (SourceLog ρ), ¬ (max start cursor.createdUnix < stop ∧
        out.length < limit) := fun _ hopen => by omega
    rw [rangeAfter_empty hlt.le, take_nil]
    unfold billingWindowPage at h
    cases readings with
    | nil =>
      rw [readWindows, if_neg (hclosed _)] at h
      cases h
      rfl
    | cons reading readings =>
      rw [readWindows, if_neg (hclosed _)] at h
      cases h
      rfl

/-- A short page is the whole range. -/
theorem eq_of_short {page all : List (SourceLog ρ)} (hpage : page = all.take limit)
    (hshort : page.length < limit) : page = all := by
  rw [hpage, length_take] at hshort
  rw [hpage, take_of_length_le (by omega)]

/-! ### Page after page -/

/-- The pages of a number of calls follow each other in the range, to its end if the last
of them was short. -/
theorem billingPages_spec (logs : Table (SourceLog.id (ρ := ρ))) (start stop : Int)
    (hlimit : 0 < limit) (calls : List (List Reading)) (cursor : LogCursor) :
    (billingPages logs start stop limit calls cursor).1.flatten <+: rangeAfter logs start stop
      cursor ∧
      ((billingPages logs start stop limit calls cursor).2 = true →
        (billingPages logs start stop limit calls cursor).1.flatten =
          rangeAfter logs start stop cursor) ∧
      (billingPages logs start stop limit calls cursor).1.length ≤
        (rangeAfter logs start stop cursor).length / limit + 1 := by
  induction calls generalizing cursor with
  | nil => simp [billingPages]
  | cons readings calls ih =>
    simp only [billingPages]
    split
    · next page hpage =>
      have htake := billingWindowPage_page hpage
      have hsplit : rangeAfter logs start stop cursor = page ++
          (rangeAfter logs start stop cursor).drop limit := by
        rw [htake, take_append_drop]
      split
      · next hshort =>
        have hall := eq_of_short htake hshort
        simp [hall]
      · next hfull =>
        have hrest := rangeAfter_last hsplit
        obtain ⟨hstarts, hdone, hlength⟩ := ih ((page.getLast?.map SourceLog.cursor).getD cursor)
        rw [hrest] at hstarts hdone hlength
        refine ⟨?_, fun h => ?_, ?_⟩
        · rw [flatten_cons, hsplit]
          exact (prefix_append_right_inj page).mpr hstarts
        · rw [flatten_cons, hdone h, ← hsplit]
        · have hle : limit ≤ (rangeAfter logs start stop cursor).length := by
            rw [htake, length_take] at hfull
            omega
          rw [length_drop] at hlength
          rw [length_cons, Nat.div_eq_sub_div hlimit hle]
          omega
    · exact ih cursor

/-- A call that succeeds returns exactly the first `limit` rows of the range after the
cursor; pages that go on from each other to a short one hold every such row once, and
the short one comes after as many calls as there are full pages. A call reads at most
as often as the range has seconds, besides the reads that time out, and ends after a
number of reads that depends on the range alone; it fails for good only where a window
of one second timed out. -/
theorem billingWindowPage_exact (logs : Table (SourceLog.id (ρ := ρ))) (start stop : Int)
    (cursor : LogCursor) (limit : Nat)
    (hlimit : 0 < limit) (readings : List Reading) (calls : List (List Reading)) :
    (∀ page, (billingWindowPage logs stop cursor limit start readings).1 = some (.ok page) →
      page = (rangeAfter logs start stop cursor).take limit ∧
        (page.length < limit → page = rangeAfter logs start stop cursor)) ∧
    ((billingPages logs start stop limit calls cursor).2 = true →
      (billingPages logs start stop limit calls cursor).1.flatten =
        rangeAfter logs start stop cursor) ∧
    (billingPages logs start stop limit calls cursor).1.length ≤
      (rangeAfter logs start stop cursor).length / limit + 1 ∧
    (billingWindowPage logs stop cursor limit start readings).2.length ≤
      (stop - start).toNat + (billingWindowPage logs stop cursor limit start readings).2.countP
        (·.reading = .timeout) ∧
    (11 * (stop - start).toNat + 9 < readings.length →
      (billingWindowPage logs stop cursor limit start readings).1.isSome) ∧
    ((billingWindowPage logs stop cursor limit start readings).1 = some (.error .permanent) →
      ∃ w ∈ (billingWindowPage logs stop cursor limit start readings).2, w.upper - w.lower = 1 ∧
        w.reading = .timeout) := by
  have hpages := billingPages_spec logs start stop hlimit calls cursor
  refine ⟨fun page hpage => ?_, hpages.2.1, hpages.2.2, ?_, fun hlong => ?_,
    readWindows_permanent (by decide)⟩
  · exact ⟨billingWindowPage_page hpage, eq_of_short (billingWindowPage_page hpage)⟩
  · have hcount := readWindows_count logs stop cursor limit readings (max start cursor.createdUnix)
      [] (show 1 ≤ maxSpan by decide)
    unfold billingWindowPage
    omega
  · refine readWindows_ends (by decide) le_rfl ?_
    have := log_span_le (min_le_left maxSpan (stop - max start cursor.createdUnix))
    omega

/-- Two rows of one second, a page to each, the first after a timeout. -/
theorem billingWindowPage_exact_pair :
    0 < 1 ∧
      (billingPages
        (⟨[⟨2, 10, ()⟩, ⟨1, 10, ()⟩], by decide⟩ : Table (SourceLog.id (ρ := Unit))) 0 20 1
        [[.timeout, .rows true, .rows true], [.rows true, .rows true], [.rows false]]
        ⟨0, 0⟩).1.flatten =
      rangeAfter (⟨[⟨2, 10, ()⟩, ⟨1, 10, ()⟩], by decide⟩ : Table (SourceLog.id (ρ := Unit))) 0 20
        ⟨0, 0⟩ :=
  ⟨by decide, (billingWindowPage_exact _ 0 20 ⟨0, 0⟩ 1 (by decide) [] _).2.1 (by decide)⟩

end ControlTower.Dashboard
