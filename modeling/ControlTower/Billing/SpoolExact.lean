import ControlTower.Billing.Spool
import ControlTower.Billing.Verification
import Mathlib.Algebra.BigOperators.Ring.Finset

/-! What a bill's totals and detail files cover.

The totals always cover the charged requests of the committed pages, each once. The
files of committed pages do so too, but a file of a page that was not committed is
only replaced when the page is read again with the same last row: otherwise it stays,
and its requests are in the detail files twice. -/
namespace ControlTower.Billing
open Go Data List Table

theorem LogRecord.id_of_position {a b : LogRecord} (h : a.position = b.position) : a.id = b.id :=
  congrArg (fun p : LogCursor => (ofLex p).2) h

/-- The ranges of two steps share no log. -/
theorem Plan.has_unique {plan : Plan} {i j : Nat} {log : LogRecord} (hi : plan.has i log) (hj : plan.has j log) :
    i = j := by
  have hwithin : ∀ {n}, plan.has n log → ∃ h : n < plan.ranges.length,
      plan.ranges[n].1 ≤ log.createdUnix ∧ log.createdUnix < plan.ranges[n].2 := by
    intro n hn
    simp only [Plan.has, Bool.and_eq_true, Option.any_eq_true, decide_eq_true_eq] at hn
    obtain ⟨-, r, hr, hfrom, hto⟩ := hn
    obtain ⟨hlt, rfl⟩ := List.getElem?_eq_some_iff.mp hr
    exact ⟨hlt, hfrom, hto⟩
  obtain ⟨hli, hi1, hi2⟩ := hwithin hi
  obtain ⟨hlj, hj1, hj2⟩ := hwithin hj
  have hapart := pairwise_iff_getElem.mp plan.apart
  rcases Nat.lt_trichotomy i j with hlt | heq | hlt
  · have := hapart i j hli hlj hlt
    omega
  · exact heq
  · have := hapart j i hlj hli hlt
    omega

namespace Spooling
variable {γ : Type} {plan : Plan} {s : Spooling γ} {n : Nat}

/-! ### A page -/

theorem mem_ahead {log : LogRecord} :
    log ∈ s.ahead plan n ↔ log ∈ s.source ∧ plan.has n log ∧ s.cursors n < log.position := by
  rw [ahead, mem_scan, Bool.and_eq_true, decide_eq_true_eq]

/-- A page is what stands up to its last row. -/
theorem mem_page_iff (hne : s.page plan n ≠ []) {log : LogRecord} (h : log ∈ s.ahead plan n) :
    log.position ≤ pageLast (s.page plan n) ↔ log ∈ s.page plan n := by
  obtain ⟨init, last, hpage⟩ : ∃ init last, s.page plan n = init ++ [last] :=
    ⟨_, _, (dropLast_append_getLast hne).symm⟩
  have hsplit : s.ahead plan n = init ++ last :: (s.ahead plan n).drop plan.pageSize := by
    have htake := take_append_drop plan.pageSize (s.ahead plan n)
    rw [← page, hpage, append_assoc] at htake
    exact htake.symm
  have hread := mem_read_iff (fun _ _ => LogRecord.id_of_position) hsplit h
  rw [hpage]
  simpa [pageLast] using hread

/-- What the worker knows of the page that it holds. -/
structure Held (plan : Plan) (s : Spooling γ) (n : Nat) (page : List LogRecord) (rows : PageRows) : Prop where
  rows : plan.terms.page page = some rows
  sourced : ∀ log ∈ page, log ∈ s.source ∧ plan.has n log ∧ s.cursors n < log.position
  ids : (page.map fun log => log.id).Nodup
  upTo : ∀ log ∈ page, log.position ≤ pageLast page
  named : ∃ log ∈ page, log.position = pageLast page

theorem page_held {rows : PageRows} (hne : s.page plan n ≠ []) (hrows : plan.terms.page (s.page plan n) = some rows) :
    Held plan s n (s.page plan n) rows where
  rows := hrows
  sourced log hlog := mem_ahead.mp (mem_of_mem_take hlog)
  ids := by
    have hperm : (s.ahead plan n).Perm (s.source.rows.filter _) := perm_insertionSort _ _
    have hnodup : ((s.ahead plan n).map fun log => log.id).Nodup :=
      (hperm.map _).nodup_iff.mpr (s.source.unique.sublist (filter_sublist.map _))
    exact hnodup.sublist ((take_sublist _ _).map _)
  upTo log hlog := (mem_page_iff hne (mem_of_mem_take hlog)).mpr hlog
  named := ⟨_, getLast_mem hne, by simp [pageLast, List.getLast?_eq_getLast_of_ne_nil hne]⟩

/-- The page moves the cursor on. -/
theorem Held.cursor_lt {page : List LogRecord} {rows : PageRows} (h : Held plan s n page rows) :
    s.cursors n < pageLast page := by
  obtain ⟨log, hlog, hlast⟩ := h.named
  exact hlast ▸ (h.sourced log hlog).2.2

end Spooling

def StepWorker.Holds (H : Nat → List LogRecord → PageRows → Prop) : StepWorker → Prop
  | .read n page rows | .spooled n page rows => H n page rows
  | _ => True

theorem StepWorker.Holds.imp {w : StepWorker} {H H' : Nat → List LogRecord → PageRows → Prop} (h : w.Holds H)
    (himp : ∀ n page rows, H n page rows → H' n page rows) : w.Holds H' := by
  cases w with
  | read n page rows => exact himp n page rows h
  | spooled n page rows => exact himp n page rows h
  | idle => trivial
  | claimed n => trivial
  | completing n => trivial

namespace Spooling
variable {γ : Type} {collate : String → γ} {plan : Plan} {s : Spooling γ} {n : Nat}

/-! ### The totals -/

structure Inv (collate : String → γ) (plan : Plan) (s : Spooling γ) : Prop where
  totals : ∀ p, s.compact.sumOn p =
    ((s.chargeable plan).map fun d => if p (d.key.collated collate) then d.value else 0).sum
  behind : ∀ e ∈ s.committed, ∀ log ∈ e.2, log ∈ s.source ∧ plan.has e.1 log ∧ log.position ≤ s.cursors e.1
  once : (s.committedLogs.map fun log => log.id).Nodup
  held : s.worker.Holds (Held plan s)

/-- A step that writes none of the rows that the totals rest on. -/
theorem Inv.same {t : Spooling γ} (h : Inv collate plan s) (hsource : t.source = s.source)
    (hcursors : t.cursors = s.cursors) (hcompact : t.compact = s.compact) (hcommitted : t.committed = s.committed)
    (hheld : t.worker.Holds (Held plan t)) : Inv collate plan t where
  totals := by simpa only [chargeable, committedLogs, hcompact, hcommitted] using h.totals
  behind := by simpa only [hsource, hcursors, hcommitted] using h.behind
  once := by simpa only [committedLogs, hcommitted] using h.once
  held := hheld

variable {page : List LogRecord} {rows : PageRows}

theorem Held.same {t : Spooling γ} (h : Held plan s n page rows)
    (hsource : ∀ log ∈ s.source, log ∈ t.source) (hcursors : t.cursors = s.cursors) : Held plan t n page rows where
  rows := h.rows
  sourced log hlog := by
    obtain ⟨h1, h2, h3⟩ := h.sourced log hlog
    exact ⟨hsource log h1, h2, hcursors ▸ h3⟩
  ids := h.ids
  upTo := h.upTo
  named := h.named

theorem mem_grown {log : LogRecord} (hnew : (s.source.find log.id).isNone) {a : LogRecord} (ha : a ∈ s.source) :
    a ∈ s.source.put log := by
  refine mem_put.mpr (.inr ⟨ha, ?_⟩)
  exact find_eq_none.mp (Option.isNone_iff_eq_none.mp hnew) a ha

theorem Inv.grow (h : Inv collate plan s) (log : LogRecord) : Inv collate plan (s.grow plan log) := by
  unfold Spooling.grow
  split
  · rename_i hnew
    have hkeep : ∀ a ∈ s.source, a ∈ s.source.put log := fun a ha => mem_grown hnew.1 ha
    refine ⟨h.totals, ?_, h.once, ?_⟩
    · intro e he a ha
      obtain ⟨h1, h2, h3⟩ := h.behind e he a ha
      exact ⟨hkeep a h1, h2, h3⟩
    · exact h.held.imp fun n page rows hheld => hheld.same hkeep rfl
  · exact h

theorem taken_holds (plan : Plan) (s : Spooling γ) (n : Nat) : (taken plan n (s.page plan n)).Holds (Held plan s) := by
  unfold taken
  split
  · trivial
  · rename_i hne
    split
    · trivial
    · rename_i rows hrows
      exact page_held (by simpa using hne) hrows

theorem Inv.start : Inv collate plan (start : Spooling γ) where
  totals p := by simp [Spooling.start, chargeable, committedLogs, Tally.sumOn, Table.total, Table.empty]
  behind e he := by cases he
  once := nodup_nil
  held := trivial

variable [DecidableEq γ]

variable {w : StepWorker}

/-- The transaction of a page. -/
theorem Inv.appendPage (h : Inv collate plan s)
    (hheld : Held plan s n page rows) (hw : w.Holds fun _ _ _ => False) :
    Inv collate plan { s.appendPage collate n page rows with worker := w } where
  totals p := by
    have hrows := (Terms.page_spec hheld.rows).1
    have hlogs : ({ s.appendPage collate n page rows with worker := w } : Spooling γ).chargeable plan =
        s.chargeable plan ++ rows.requestDetails := by
      simp [chargeable, committedLogs, Spooling.appendPage, hrows]
    rw [hlogs, map_append, sum_append, ← h.totals]
    exact sumOn_appendCompact collate s.compact rows.requestDetails p
  behind e he log hlog := by
    have hlt := hheld.cursor_lt
    rcases mem_append.mp he with he | he
    · obtain ⟨h1, h2, h3⟩ := h.behind e he log hlog
      refine ⟨h1, h2, h3.trans ?_⟩
      by_cases hn : e.1 = n
      · simpa [Spooling.appendPage, hn] using hlt.le
      · simp [Spooling.appendPage, hn]
    · cases mem_singleton.mp he
      obtain ⟨h1, h2, -⟩ := hheld.sourced log hlog
      exact ⟨h1, h2, by simpa [Spooling.appendPage] using hheld.upTo log hlog⟩
  once := by
    have hlogs : ({ s.appendPage collate n page rows with worker := w } : Spooling γ).committedLogs =
        s.committedLogs ++ page := by
      simp [committedLogs, Spooling.appendPage]
    rw [hlogs, map_append]
    refine h.once.append hheld.ids ?_
    -- a log of the page is after the cursor, a committed one of its step is not
    intro i hold hnew
    obtain ⟨a, ha, rfl⟩ := mem_map.mp hold
    obtain ⟨b, hb, hid⟩ := mem_map.mp hnew
    obtain ⟨e, he, hae⟩ := mem_flatMap.mp ha
    obtain ⟨ha1, ha2, ha3⟩ := h.behind e he a hae
    obtain ⟨hb1, hb2, hb3⟩ := hheld.sourced b hb
    have hab : b = a := eq_of_key hb1 ha1 hid
    subst hab
    rw [Plan.has_unique ha2 hb2] at ha3
    exact absurd hb3 (not_lt.mpr ha3)
  held := hw.imp fun _ _ _ hf => hf.elim

/-- **One event.** -/
theorem Inv.step (h : Inv collate plan s) (e : SpoolEvent) : Inv collate plan (s.step collate plan e) := by
  cases e with
  | grow log => exact h.grow log
  | claim n =>
    simp only [Spooling.step]
    split
    · split
      · exact h.same rfl rfl rfl rfl trivial
      · exact h
    · exact h
  | read ok =>
    simp only [Spooling.step]
    split
    · rename_i n hn
      refine h.same rfl rfl rfl rfl ?_
      cases ok with
      | true => exact (taken_holds plan s n).imp fun _ _ _ hheld => hheld.same (fun _ ha => ha) rfl
      | false => trivial
    · exact h
  | spool ok =>
    simp only [Spooling.step]
    split
    · rename_i n page rows hw
      have hheld : Held plan s n page rows := by
        have := h.held
        rwa [hw] at this
      split
      · exact h.same rfl rfl rfl rfl (hheld.same (fun _ ha => ha) rfl)
      · exact h.same rfl rfl rfl rfl trivial
    · exact h
  | append call yields =>
    simp only [Spooling.step]
    split
    · rename_i n page rows hw
      have hheld : Held plan s n page rows := by
        have := h.held
        rwa [hw] at this
      split
      · refine h.appendPage hheld ?_
        split <;> try split <;> try split
        all_goals trivial
      · refine h.same rfl rfl rfl rfl ?_
        split <;> try split <;> try split
        all_goals trivial
    · exact h
  | complete call =>
    simp only [Spooling.step]
    split
    · exact h.same rfl rfl rfl rfl trivial
    · exact h
  | stop => exact h.same rfl rfl rfl rfl trivial

theorem Inv.run (h : Inv collate plan s) (events : List SpoolEvent) :
    Inv collate plan (s.run collate plan events) := by
  induction events generalizing s with
  | nil => exact h
  | cons e events ih => exact ih (h.step e)

/-! ### The files -/

/-- The file is of a page that is not committed. -/
def Left (s : Spooling γ) (f : PageFile) : Prop := s.cursors f.step < f.cursor

/-- The page that is committed does not pass over a file that an earlier try has left: such
a file stands behind the page, or was replaced by it. -/
def steady (s : Spooling γ) : SpoolEvent → Bool
  | .append call _ =>
    match s.worker with
    | .spooled n page rows => !call.commits || s.spool.rows.all fun f =>
        f.step != n || !decide (s.cursors n < f.cursor ∧ f.cursor ≤ pageLast page) ||
          f == ⟨n, pageLast page, rows.requestDetails⟩
    | _ => true
  | _ => true

def Steady (collate : String → γ) (plan : Plan) (s : Spooling γ) : List SpoolEvent → Prop
  | [] => True
  | e :: events => s.steady e = true ∧ (s.step collate plan e).Steady collate plan events

/-- A short page ends behind all files of its step. -/
def Last (plan : Plan) (s : Spooling γ) (n : Nat) (page : List LogRecord) : Prop :=
  page.length < plan.pageSize → ∀ f ∈ s.spool, f.step = n → s.Left f → f.cursor ≤ pageLast page

/-- What the worker knows of the files of its step. -/
def Tracked (plan : Plan) (s : Spooling γ) : StepWorker → Prop
  | .idle => True
  | .claimed n => s.complete n = false
  | .read n page _ => s.complete n = false ∧ s.Last plan n page
  | .spooled n page rows => s.complete n = false ∧ s.Last plan n page ∧
    (rows.requestDetails ≠ [] → ⟨n, pageLast page, rows.requestDetails⟩ ∈ s.spool)
  | .completing n => ∀ f ∈ s.spool, f.step = n → ¬ s.Left f

/-- The requests in the files of committed pages. -/
def filed (s : Spooling γ) (d : RequestDetail) : Int :=
  s.spool.total fun f => if f.cursor ≤ s.cursors f.step then (f.rows.count d : Int) else 0

structure Tidy (plan : Plan) (s : Spooling γ) : Prop where
  filed : ∀ d, s.filed d = (s.chargeable plan).count d
  named : ∀ f ∈ s.spool, s.Left f → ∃ log ∈ s.source, plan.has f.step log ∧ log.position = f.cursor
  done : ∀ f ∈ s.spool, s.complete f.step → ¬ s.Left f
  tracked : s.Tracked plan s.worker

variable (h : Tidy plan s)
include h

omit [DecidableEq γ] in
/-- A step of the worker that writes nothing. -/
theorem Tidy.worker (hw : s.Tracked plan w) : Tidy plan { s with worker := w } :=
  ⟨h.filed, h.named, h.done, hw⟩

omit [DecidableEq γ] in
theorem Tidy.grow (log : LogRecord) : Tidy plan (s.grow plan log) := by
  unfold Spooling.grow
  split
  · rename_i hnew
    have hkeep : ∀ a ∈ s.source, a ∈ s.source.put log := fun a ha => mem_grown hnew.1 ha
    refine ⟨h.filed, fun f hf hleft => ?_, h.done, h.tracked⟩
    obtain ⟨a, ha, hrest⟩ := h.named f hf hleft
    exact ⟨a, hkeep a ha, hrest⟩
  · exact h

omit [DecidableEq γ] in
/-- A file that is left has its last row ahead of the cursor. -/
theorem Tidy.ahead {f : PageFile} (hf : f ∈ s.spool) (hleft : s.Left f) :
    ∃ log ∈ s.ahead plan f.step, log.position = f.cursor := by
  obtain ⟨log, hlog, hhas, hpos⟩ := h.named f hf hleft
  exact ⟨log, mem_ahead.mpr ⟨hlog, hhas, hpos ▸ hleft⟩, hpos⟩

omit [DecidableEq γ] in
/-- A page that is read: it has the rows of all the files that are left, unless it is full. -/
theorem Tidy.taken (hw : s.worker = .claimed n) : s.Tracked plan (taken plan n (s.page plan n)) := by
  have hopen : s.complete n = false := by
    have := h.tracked
    rwa [hw] at this
  unfold Spooling.taken
  split
  · rename_i hempty
    intro f hf hn hleft
    obtain ⟨log, hahead, -⟩ := h.ahead hf hleft
    subst hn
    have hnil : s.page plan f.step = [] := by simpa using hempty
    have := plan.sized
    rcases take_eq_nil_iff.mp hnil with hzero | hzero
    · omega
    · rw [hzero] at hahead
      cases hahead
  · rename_i hne
    split
    · trivial
    · refine ⟨hopen, fun hshort f hf hn hleft => ?_⟩
      obtain ⟨log, hahead, hpos⟩ := h.ahead hf hleft
      subst hn
      have hall : s.page plan f.step = s.ahead plan f.step := by
        refine take_of_length_le ?_
        rw [page, length_take] at hshort
        omega
      exact hpos ▸ (mem_page_iff (by simpa using hne) hahead).mpr (hall ▸ hahead)

omit [DecidableEq γ] in
/-- `WritePage` writes a file of a page that is not committed. -/
theorem Tidy.writePage (hw : s.worker = .read n page rows) (hheld : Held plan s n page rows) :
    Tidy plan { s with
      spool := Spooling.writePage s.spool n (pageLast page) rows.requestDetails
      worker := .spooled n page rows } := by
  obtain ⟨hopen, htracked⟩ : s.complete n = false ∧ s.Last plan n page := by
    have := h.tracked
    rwa [hw] at this
  have hlt := hheld.cursor_lt
  by_cases hempty : rows.requestDetails = []
  · have hsame : Spooling.writePage s.spool n (pageLast page) rows.requestDetails = s.spool := by
      simp [Spooling.writePage, hempty]
    rw [hsame]
    exact ⟨h.filed, h.named, h.done, hopen, htracked, fun hne => absurd hempty hne⟩
  · let file : PageFile := ⟨n, pageLast page, rows.requestDetails⟩
    have hput : Spooling.writePage s.spool n (pageLast page) rows.requestDetails = s.spool.put file := by
      simp [Spooling.writePage, hempty, file]
    rw [hput]
    have hmem : ∀ {f}, f ∈ s.spool.put file → f = file ∨ f ∈ s.spool := fun hf =>
      (mem_put.mp hf).imp_right And.left
    refine ⟨?_, ?_, ?_, hopen, ?_, fun _ => mem_put.mpr (.inl rfl)⟩
    · intro d
      -- neither the file nor the one in its place is of a committed page
      have hzero : ∀ g : PageFile, g.path = file.path →
          (if g.cursor ≤ s.cursors g.step then (g.rows.count d : Int) else 0) = 0 := by
        intro g hg
        have hstep : g.step = n := congrArg (fun p : Nat ×ₗ LogCursor => (ofLex p).1) hg
        have hcursor : g.cursor = pageLast page := congrArg (fun p : Nat ×ₗ LogCursor => (ofLex p).2) hg
        rw [if_neg]
        rw [hstep, hcursor]
        exact not_le.mpr hlt
      refine Eq.trans ?_ (h.filed d)
      show (s.spool.put file).total _ = s.spool.total _
      rw [total_put, hzero file rfl]
      cases hfind : s.spool.find file.path with
      | none => simp
      | some g => simp [hzero g (find_eq_some.mp hfind).2]
    · intro f hf hleft
      rcases hmem hf with rfl | hf
      · obtain ⟨log, hlog, hlast⟩ := hheld.named
        exact ⟨log, (hheld.sourced log hlog).1, (hheld.sourced log hlog).2.1, hlast⟩
      · exact h.named f hf hleft
    · intro f hf hcomplete
      rcases hmem hf with rfl | hf
      · exact absurd (hopen.symm.trans hcomplete) (by simp)
      · exact h.done f hf hcomplete
    · intro hshort f hf hn hleft
      rcases hmem hf with rfl | hf
      · exact le_rfl
      · exact htracked hshort f hf hn hleft

/-- The transaction of a page makes its file one of a committed page, and no other. -/
theorem Tidy.appendPage (hw : s.worker = .spooled n page rows) (hheld : Held plan s n page rows)
    (honly : ∀ f ∈ s.spool, f.step = n → s.Left f → f.cursor ≤ pageLast page →
      f = ⟨n, pageLast page, rows.requestDetails⟩)
    (hnext : w = .idle ∨ w = .claimed n ∨ w = .completing n ∧ page.length < plan.pageSize) :
    Tidy plan { s.appendPage collate n page rows with worker := w } := by
  let file : PageFile := ⟨n, pageLast page, rows.requestDetails⟩
  obtain ⟨hopen, hbehind, hthere⟩ : s.complete n = false ∧ s.Last plan n page ∧
      (rows.requestDetails ≠ [] → file ∈ s.spool) := by
    have := h.tracked
    rwa [hw] at this
  have hlt := hheld.cursor_lt
  let t : Spooling γ := { s.appendPage collate n page rows with worker := w }
  have hsame : ∀ m, m ≠ n → t.cursors m = s.cursors m := fun m hm => Function.update_of_ne hm _ _
  have hmoved : t.cursors n = pageLast page := Function.update_self n _ _
  have hleft : ∀ f : PageFile, t.Left f → s.Left f := by
    intro f hf
    refine lt_of_le_of_lt ?_ hf
    by_cases hn : f.step = n
    · rw [hn, hmoved]
      exact hlt.le
    · rw [hsame f.step hn]
  have hcharge : t.chargeable plan = s.chargeable plan ++ rows.requestDetails := by
    simp [t, chargeable, committedLogs, Spooling.appendPage, (Terms.page_spec hheld.rows).1]
  refine ⟨?_, ?_, ?_, ?_⟩
  · intro d
    -- of all files only that of the page is new among those of committed pages
    have hsplit : ∀ f ∈ s.spool, (if f.cursor ≤ t.cursors f.step then (f.rows.count d : Int) else 0) =
        (if f.cursor ≤ s.cursors f.step then (f.rows.count d : Int) else 0) +
          if f = file then (f.rows.count d : Int) else 0 := by
      intro f hf
      by_cases hfile : f = file
      · have hle : file.cursor ≤ t.cursors file.step := hmoved.ge
        have hnot : ¬ file.cursor ≤ s.cursors file.step := not_le.mpr hlt
        rw [hfile, if_pos hle, if_neg hnot, if_pos rfl, zero_add]
      · rw [if_neg hfile, add_zero]
        by_cases hn : f.step = n
        · refine if_congr ⟨fun hnew => not_lt.mp fun hf' => hfile ?_, fun hold => ?_⟩ rfl rfl
          · exact honly f hf hn hf' (by rwa [hn, hmoved] at hnew)
          · rw [hn] at hold ⊢
            exact hold.trans (hmoved ▸ hlt.le)
        · rw [hsame f.step hn]
    have hnew : (s.spool.total fun f => if f = file then (f.rows.count d : Int) else 0) =
        rows.requestDetails.count d := by
      by_cases hempty : rows.requestDetails = []
      · rw [hempty]
        refine total_zero fun f _ => ?_
        split
        · rename_i hfile
          simp [hfile, file, hempty]
        · rfl
      · exact total_single (hthere hempty) fun f => (f.rows.count d : Int)
    show s.spool.total _ = _
    rw [total_congr hsplit, total_add, hnew, hcharge, count_append, Nat.cast_add, ← h.filed d]
    rfl
  · intro f hf hf'
    exact h.named f hf (hleft f hf')
  · intro f hf hcomplete hf'
    exact h.done f hf hcomplete (hleft f hf')
  · rcases hnext with rfl | rfl | ⟨rfl, hshort⟩
    · trivial
    · exact hopen
    · intro f hf hn hf'
      refine not_lt.mpr (hbehind hshort f hf hn (hleft f hf')) ?_
      rwa [Left, hn, hmoved] at hf'

/-- **One event.** -/
theorem Tidy.step (hinv : Inv collate plan s) {e : SpoolEvent} (hsteady : s.steady e) :
    Tidy plan (s.step collate plan e) := by
  cases e with
  | grow log => exact h.grow log
  | claim n =>
    simp only [Spooling.step]
    split
    · split
      · rename_i hn
        exact h.worker hn.2
      · exact h
    · exact h
  | read ok =>
    simp only [Spooling.step]
    split
    · rename_i n hw
      cases ok with
      | false => exact h.worker trivial
      | true => exact h.worker (h.taken hw)
    · exact h
  | spool ok =>
    simp only [Spooling.step]
    split
    · rename_i n page rows hw
      have hheld : Held plan s n page rows := by
        have := hinv.held
        rwa [hw] at this
      split
      · exact h.writePage hw hheld
      · exact h.worker trivial
    · exact h
  | append call yields =>
    simp only [Spooling.step]
    split
    · rename_i n page rows hw
      have hheld : Held plan s n page rows := by
        have := hinv.held
        rwa [hw] at this
      have honly (hcommits : call.commits = true) : ∀ f ∈ s.spool, f.step = n → s.Left f →
          f.cursor ≤ pageLast page → f = ⟨n, pageLast page, rows.requestDetails⟩ := by
        intro f hf hn hleft hle
        simp only [steady, hw, hcommits, Bool.not_true, Bool.false_or, all_eq_true] at hsteady
        simpa [hn, show s.cursors n < f.cursor from hn ▸ hleft, hle] using hsteady f hf
      cases call with
      | failed => exact h.worker trivial
      | lost => exact h.appendPage hw hheld (honly rfl) (.inl rfl)
      | ok =>
        refine h.appendPage hw hheld (honly rfl) ?_
        simp only [Call.reports, Bool.not_true, Bool.false_eq_true, if_false]
        split
        · rename_i hshort
          simp only [Bool.and_eq_true, decide_eq_true_eq] at hshort
          exact .inr (.inr ⟨rfl, hshort.1⟩)
        · split
          · exact .inl rfl
          · exact .inr (.inl rfl)
    · exact h
  | complete call =>
    simp only [Spooling.step]
    split
    · rename_i n hw
      have hdone : ∀ f ∈ s.spool, f.step = n → ¬ s.Left f := by
        have := h.tracked
        rwa [hw] at this
      refine ⟨h.filed, h.named, ?_, trivial⟩
      intro f hf hcomplete
      by_cases hn : f.step = n
      · exact hdone f hf hn
      · refine h.done f hf ?_
        cases hc : call.commits with
        | true => simpa [hc, Function.update_of_ne hn] using hcomplete
        | false => simpa [hc] using hcomplete
    · exact h
  | stop => exact h.worker trivial

omit h in
omit [DecidableEq γ] in
theorem Tidy.start : Tidy plan (start : Spooling γ) where
  filed d := by simp [Spooling.start, Spooling.filed, chargeable, committedLogs, Table.total, Table.empty]
  named f hf := by cases hf
  done f hf := by cases hf
  tracked := trivial

theorem Tidy.run (hinv : Inv collate plan s) {events : List SpoolEvent}
    (hsteady : s.Steady collate plan events) : Tidy plan (s.run collate plan events) := by
  induction events generalizing s with
  | nil => exact h
  | cons e events ih => exact ih (h.step hinv hsteady.1) (hinv.step e) hsteady.2

omit [DecidableEq γ] in
/-- With every step complete, the files are those of the committed pages. -/
theorem Tidy.details_perm (hdone : ∀ n < plan.ranges.length, s.complete n = true) :
    s.details.Perm (s.chargeable plan) := by
  have hnone : ∀ f ∈ s.spool, f.cursor ≤ s.cursors f.step := by
    intro f hf
    by_contra hnot
    have hleft : s.Left f := not_le.mp hnot
    obtain ⟨log, -, hhas, -⟩ := h.named f hf hleft
    have hlt : f.step < plan.ranges.length := by
      simp only [Plan.has, Bool.and_eq_true, Option.any_eq_true] at hhas
      obtain ⟨-, r, hr, -⟩ := hhas
      exact (List.getElem?_eq_some_iff.mp hr).1
    exact h.done f hf (hdone _ hlt) hleft
  rw [perm_iff_count]
  intro d
  have hcount : (s.details.count d : Int) = s.filed d := by
    rw [details, count_flatMap, Nat.cast_list_sum, map_map, openPages]
    have hscan : ((s.spool.scan PageFile.path fun _ => true).map fun f => (f.rows.count d : Int)).sum = _ :=
      sum_scan s.spool (fun _ => true) fun f => (f.rows.count d : Int)
    refine Eq.trans hscan (total_congr fun f hf => ?_)
    rw [if_pos rfl, if_pos (hnone f hf)]
  have := hcount.trans (h.filed d)
  exact_mod_cast this

omit h

/-- The totals of every run. -/
theorem totals_exact (collate : String → γ) (plan : Plan) (events : List SpoolEvent) (k : CompactKey γ) :
    (start.run collate plan events).compact.value k =
      (((start.run collate plan events).chargeable plan).map fun d =>
        if d.key.collated collate = k then d.value else 0).sum := by
  have h : Inv collate plan (start.run collate plan events) := Inv.start.run events
  rw [Tally.value_eq_sumOn, h.totals]
  simp only [decide_eq_true_eq]

/-- **The totals and the detail files of a bill cover the same requests, each once**, in
every run in which no page that is committed passes over a file of an earlier try. -/
theorem bill_covered_once {collate : String → γ} {plan : Plan} {events : List SpoolEvent}
    (hsteady : start.Steady collate plan events)
    (hdone : ∀ n < plan.ranges.length, (start.run collate plan events).complete n = true) :
    (∀ k, (start.run collate plan events).compact.value k =
      (((start.run collate plan events).chargeable plan).map fun d =>
        if d.key.collated collate = k then d.value else 0).sum) ∧
    ((start.run collate plan events).committedLogs.map fun log => log.id).Nodup ∧
    (start.run collate plan events).details.Perm ((start.run collate plan events).chargeable plan) := by
  have hinv : Inv collate plan (start.run collate plan events) := Inv.start.run events
  have htidy : Tidy plan (start.run collate plan events) := Tidy.start.run Inv.start hsteady
  exact ⟨totals_exact collate plan events, hinv.once, htidy.details_perm hdone⟩

/-- A bill of one day, read in pages of two. -/
def samplePlan : Plan where
  ranges := [(0, 86400)]
  apart := by simp
  pageSize := 2
  sized := by decide
  archive := false
  wanted := fun _ => true
  terms := .siteWide 2 (fun _ => 0) asLogged

def firstLog : LogRecord := { sampleLog "" with createdUnix := 10 }

def secondLog : LogRecord := { sampleLog "" with id := 2, createdUnix := 20 }

/-- A try that ends after the spool, and another one. -/
def retried (between : List SpoolEvent) : List SpoolEvent :=
  [.grow firstLog, .claim 0, .read true, .spool true, .append .failed false] ++ between ++
    [.claim 0, .read true, .spool true, .append .ok false, .complete .ok, .claim 0, .read true, .complete .ok]

instance (collate : String → γ) (plan : Plan) (s : Spooling γ) (events : List SpoolEvent) :
    Decidable (s.Steady collate plan events) := by
  induction events generalizing s with
  | nil => exact .isTrue trivial
  | cons e events ih =>
    have := ih (s.step collate plan e)
    exact inferInstanceAs (Decidable (_ ∧ _))

def thirdLog : LogRecord := { sampleLog "" with id := 3, createdUnix := 30 }

/-- The first try leaves a file of the rows 1 and 3. With row 2 in between, row 3 comes on
the next page, whose file replaces it. -/
def overtaken : List SpoolEvent :=
  .grow thirdLog :: retried [.grow secondLog] ++ [.spool true, .append .ok false, .complete .ok]

theorem bill_covered_once_overtaken : (start.run id samplePlan overtaken).details.Perm
        ((start.run id samplePlan overtaken).chargeable samplePlan) ∧
      (start.run id samplePlan overtaken).details.map (·.sourceLogId) = [1, 2, 3] := by
  have hsteady : start.Steady id samplePlan overtaken := by decide +kernel
  have hdone : ∀ n < samplePlan.ranges.length, (start.run id samplePlan overtaken).complete n = true := by
    decide +kernel
  exact ⟨(bill_covered_once hsteady hdone).2.2, by decide +kernel⟩

/-- With a row in between the request of the first try is in the detail files twice. -/
theorem grown_page_filed_twice :
    ∃ events : List SpoolEvent, (∀ n < samplePlan.ranges.length, (start.run id samplePlan events).complete n = true) ∧
      ((start.run id samplePlan events).chargeable samplePlan).map (·.sourceLogId) = [1, 2] ∧
      (start.run id samplePlan events).details.map (·.sourceLogId) = [1, 1, 2] := by
  refine ⟨retried [.grow secondLog], ?_⟩
  decide +kernel

end Spooling

end ControlTower.Billing
