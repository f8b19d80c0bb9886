import ControlTower.Billing.DetailArchive
import ControlTower.Data.Paging
import Mathlib.Data.List.Induction
import Mathlib.Data.List.Range

/-! The pages of saved details are the rows that meet the filter.

What the manifest says of a part holds of its rows, so a part that is passed over has no
row for the filter, and the reader sees the rows as one numbered list. -/
namespace ControlTower.Billing
open Go Data Paging List Option Finset SettlementDetailRow

/-! ### The names of the parts -/

theorem ofDigitChars_zeros (n : Nat) (cs : List Char) :
    Nat.ofDigitChars 10 (List.replicate n '0' ++ cs) 0 = Nat.ofDigitChars 10 cs 0 := by
  induction n with
  | zero => rfl
  | succ n ih => exact ih

theorem paddedDigits_injective {m n : Nat} (h : paddedDigits m = paddedDigits n) : m = n := by
  have hread := congrArg (fun cs => Nat.ofDigitChars 10 cs 0) h
  simp only [paddedDigits, ofDigitChars_zeros] at hread
  rwa [Nat.ofDigitChars_ten_toDigits, Nat.ofDigitChars_ten_toDigits] at hread

theorem partName_injective {m n : Nat} (h : partName m = partName n) : m = n := by
  have hlist := congrArg String.toList h
  simp only [partName, String.toList_append, String.toList_ofList, append_cancel_right_eq,
    append_cancel_left_eq] at hlist
  exact paddedDigits_injective hlist

/-! ### What the writer keeps -/

/-- What the manifest says of a part holds of its rows. -/
structure PartFile.Summarized (p : PartFile) : Prop where
  rows : p.part.rows = p.rows.length
  first : ∀ v ∈ p.rows, p.part.first ≤ v.time
  last : ∀ v ∈ p.rows, v.time ≤ p.part.last
  models : ∀ v ∈ p.rows, v.model ∈ p.part.models
  tokens : ∀ v ∈ p.rows, v.tokenKey ∈ p.part.tokens

theorem PartFile.start_summarized (n : Nat) : (PartFile.start n).Summarized where
  rows := rfl
  first _ h := by cases h
  last _ h := by cases h
  models _ h := by cases h
  tokens _ h := by cases h

theorem PartFile.Summarized.add {p : PartFile} (h : p.Summarized) (v : SettlementDetailRow) :
    (p.add v).Summarized where
  rows := by
    show p.part.rows + 1 = (p.rows ++ [v]).length
    rw [h.rows, length_append, length_singleton]
  first u hu := by
    show (if p.part.rows = 0 ∨ v.time < p.part.first then v.time else p.part.first) ≤ u.time
    rcases mem_append.mp hu with hu | hu
    · have hne : p.part.rows ≠ 0 := by
        rw [h.rows]
        exact (length_pos_of_mem hu).ne'
      split
      · next hfirst => exact (hfirst.resolve_left hne).le.trans (h.first u hu)
      · exact h.first u hu
    · rw [List.mem_singleton.mp hu]
      split
      · exact le_refl _
      · next hfirst => exact not_lt.mp fun hlt => hfirst (.inr hlt)
  last u hu := by
    show u.time ≤ if p.part.last < v.time then v.time else p.part.last
    rcases mem_append.mp hu with hu | hu
    · split
      · next hlast => exact (h.last u hu).trans hlast.le
      · exact h.last u hu
    · rw [List.mem_singleton.mp hu]
      split
      · exact le_refl _
      · next hlast => exact not_lt.mp hlast
  models u hu := by
    rcases mem_append.mp hu with hu | hu
    · exact mem_insert_of_mem (h.models u hu)
    · rw [List.mem_singleton.mp hu]
      exact mem_insert_self _ _
  tokens u hu := by
    rcases mem_append.mp hu with hu | hu
    · exact mem_insert_of_mem (h.tokens u hu)
    · rw [List.mem_singleton.mp hu]
      exact mem_insert_self _ _

/-- **A part that the filter passes over has no row for it.** -/
theorem PartFile.Summarized.not_match {p : PartFile} (h : p.Summarized) {f : SettlementDetailFilter}
    (hf : f.includes p.part = false) :
    ∀ v ∈ p.rows, f.Match v = false := by
  intro v hv
  rw [← Bool.not_eq_true] at hf ⊢
  intro hmatch
  apply hf
  simp only [SettlementDetailFilter.Match, SettlementDetailFilter.includes, Bool.and_eq_true,
    Bool.or_eq_true, decide_eq_true_eq] at hmatch ⊢
  obtain ⟨⟨⟨hfrom, hto⟩, hmodel⟩, htoken⟩ := hmatch
  refine ⟨⟨⟨hfrom.imp_right fun h' => h'.trans (h.last v hv), hto.imp_right fun h' =>
    (h.first v hv).trans_lt h'⟩, ?_⟩, ?_⟩
  · exact hmodel.imp_right fun (hv' : v.model = f.model) => hv' ▸ h.models v hv
  · exact htoken.imp_right fun (hv' : v.tokenKey = f.token) => hv' ▸ h.tokens v hv

/-- What holds of the writer after some rows. -/
structure DetailWriter.Wrote (w : DetailWriter) (written : List SettlementDetailRow) : Prop where
  rows : w.files.flatMap PartFile.rows = written
  total : w.total = written.length
  names : w.files.map (fun p => p.part.name) = (List.range w.files.length).map fun i =>
    partName (i + 1)
  summarized : ∀ p ∈ w.files, p.Summarized

namespace DetailWriter.Wrote
variable {w : DetailWriter} {written : List SettlementDetailRow}

theorem startPart (h : w.Wrote written) : w.startPart.Wrote written where
  rows := by
    simp only [DetailWriter.files, DetailWriter.startPart, toList_some, flatMap_append,
      flatMap_singleton]
    rw [← flatMap_append]
    exact (append_nil _).trans h.rows
  total := h.total
  names := by
    have hfiles : w.startPart.files = w.files ++ [PartFile.start (w.files.length + 1)] := rfl
    rw [hfiles, map_append, h.names, length_append, length_singleton, range_succ, map_append]
    rfl
  summarized p hp := by
    rcases mem_append.mp hp with hp | hp
    · exact h.summarized p hp
    · rw [List.mem_singleton.mp hp]
      exact PartFile.start_summarized _

/-- A row goes to the end of the current part. -/
theorem encode {p : PartFile} (h : w.Wrote written) (hp : w.current = some p)
    (v : SettlementDetailRow) : (w.encode v).Wrote (written ++ [v]) := by
  have hbefore : w.files = w.closed ++ [p] := by rw [DetailWriter.files, hp, toList_some]
  have hafter : (w.encode v).files = w.closed ++ [p.add v] := by
    simp only [DetailWriter.files, DetailWriter.encode, hp, map_some, toList_some]
  constructor
  · rw [hafter, ← h.rows, hbefore, flatMap_append, flatMap_append, append_assoc]
    simp [PartFile.add]
  · show w.total + 1 = _
    rw [h.total, length_append, length_singleton]
  · have hnames := h.names
    rw [hbefore] at hnames
    rw [hafter]
    simpa [PartFile.add] using hnames
  · intro q hq
    rw [hafter] at hq
    rcases mem_append.mp hq with hq | hq
    · exact h.summarized q (hbefore ▸ mem_append_left _ hq)
    · rw [List.mem_singleton.mp hq]
      exact (h.summarized p (hbefore ▸ mem_append_right _ mem_cons_self)).add v

theorem write (h : w.Wrote written) (v : SettlementDetailRow) :
    (w.write v).Wrote (written ++ [v]) := by
  unfold DetailWriter.write
  split
  · exact h.startPart.encode rfl v
  · next hcurrent =>
    cases hp : w.current with
    | none => exact absurd (by simp [DetailWriter.needsPart, hp]) hcurrent
    | some p => exact h.encode hp v

end DetailWriter.Wrote

theorem wrote (written : List SettlementDetailRow) :
    (written.foldl DetailWriter.write .empty).Wrote written := by
  induction written using List.reverseRecOn with
  | nil => exact ⟨rfl, rfl, rfl, fun p hp => by cases hp⟩
  | append_singleton written v ih =>
    rw [foldl_append]
    exact ih.write v

/-! ### What a visit sees -/

section Visit
variable {σ : Type} {f : SettlementDetailFilter} {cursor : Nat}
  {visit : σ → SettlementDetailRow → Nat → Except (VisitStop σ) σ}

theorem visitRows_eq (rows : List SettlementDetailRow) (offset : Nat) (s : σ) :
    visitRows f cursor visit rows.length rows offset s =
      (hits f.Match cursor offset (rows.map filled)).foldlM (fun s e => visit s e.1 e.2) s := by
  induction rows generalizing offset s with
  | nil => rfl
  | cons v rows ih =>
    rw [List.length_cons, visitRows, List.map_cons, hits]
    split
    · rw [foldlM_cons]
      cases visit s v.filled (offset + 1) with
      | error stop => rfl
      | ok s => exact ih (offset + 1) s
    · exact ih (offset + 1) s

/-- Filling a row leaves what a filter looks at. -/
theorem match_filled (f : SettlementDetailFilter) (v : SettlementDetailRow) :
    f.Match v.filled = f.Match v := rfl

/-- **A visit sees the rows of all parts as one numbered list.** -/
theorem visitParts_eq {entries : List (String × List SettlementDetailRow)} {files : List PartFile}
    (hentries : ∀ p ∈ files, entries.lookup p.part.name = some p.rows)
    (hfiles : ∀ p ∈ files, p.Summarized) (offset : Nat) (s : σ) :
    visitParts f cursor visit entries (files.map PartFile.part) offset s =
      (hits f.Match cursor offset ((files.flatMap PartFile.rows).map filled)).foldlM
        (fun s e => visit s e.1 e.2) s := by
  induction files generalizing offset s with
  | nil => rfl
  | cons p files ih =>
    have hp := hfiles p mem_cons_self
    have hrest := fun offset s => ih (fun q hq => hentries q (mem_cons_of_mem p hq))
      (fun q hq => hfiles q (mem_cons_of_mem p hq)) offset s
    rw [List.map_cons, visitParts, List.flatMap_cons, List.map_append, hits_append, List.length_map,
      List.foldlM_append, ← hp.rows]
    by_cases hpass : offset + p.part.rows ≤ cursor ∨ f.includes p.part = false
    · have hnone : hits f.Match cursor offset (p.rows.map filled) = [] := by
        rcases hpass with hbefore | hfilter
        · rw [hp.rows] at hbefore
          exact hits_before (by rwa [length_map])
        · exact hits_eq_nil (forall_mem_map.mpr fun v hv =>
            (match_filled f v).trans (hp.not_match hfilter v hv))
      rw [if_pos hpass, hnone, hrest]
      rfl
    · rw [if_neg hpass, hentries p mem_cons_self, hp.rows]
      simp only [visitRows_eq]
      cases (hits f.Match cursor offset (p.rows.map filled)).foldlM
        (fun s e => visit s e.1 e.2) s with
      | error stop => rfl
      | ok s => exact hrest _ s

end Visit

/-! ### Pages -/

namespace DetailArchive
variable {limit : Nat} {s : PageState}

/-- A page that is not full takes the rows. -/
theorem foldlM_pageVisit (limit : Nat) (l : List (SettlementDetailRow × Nat))
    (h : s.rows.length + l.length ≤ limit) :
    ∃ last, l.foldlM (fun s e => pageVisit limit s e.1 e.2) s = .ok ⟨s.rows ++ l.map Prod.fst,
      s.next, last⟩ ∧
      ∀ e, l.getLast? = some e → last = e.2 := by
  induction l using List.reverseRecOn with
  | nil => exact ⟨s.last, by simp [pure, Except.pure], by simp⟩
  | append_singleton l e ih =>
    rw [length_append, length_singleton] at h
    obtain ⟨last, hfold, -⟩ := ih (by omega)
    refine ⟨e.2, ?_, by simp⟩
    rw [foldlM_append, hfold]
    have hlen : s.rows.length + l.length ≠ limit := by omega
    show (pageVisit limit ⟨s.rows ++ l.map Prod.fst, s.next, last⟩ e.1 e.2 >>= pure) = _
    simp [pageVisit, hlen]

/-- The archive shows the rows, filled, as one numbered list. -/
def Shows (d : DetailArchive) (f : SettlementDetailFilter) (rows : List SettlementDetailRow) :
    Prop :=
  ∀ {σ : Type} (cursor : Nat) (visit : σ → SettlementDetailRow → Nat → Except (VisitStop σ) σ)
    (s : σ),
    d.visit f cursor visit s = (hits f.Match cursor 0 rows).foldlM (fun s e => visit s e.1 e.2) s

variable {d : DetailArchive} {f : SettlementDetailFilter} {rows : List SettlementDetailRow}
  {cursor : Nat}

theorem page_last (h : d.Shows f rows) (hlimit : 1 ≤ limit ∧ limit ≤ 200)
    (hshort : (hits f.Match cursor 0 rows).length ≤ limit) :
    d.page f cursor limit = .ok ((hits f.Match cursor 0 rows).map Prod.fst, 0) := by
  obtain ⟨last, hfold, -⟩ := foldlM_pageVisit (s := ⟨[], 0, cursor⟩) limit
    (hits f.Match cursor 0 rows) (by simpa using hshort)
  rw [page, if_neg (by omega), h, hfold]
  rfl

theorem page_full (h : d.Shows f rows) (hlimit : 1 ≤ limit ∧ limit ≤ 200)
    {taken rest : List (SettlementDetailRow × Nat)}
    {last : SettlementDetailRow × Nat} (hhits : hits f.Match cursor 0 rows = taken ++ last :: rest)
    (hfull : taken.length + 1 = limit)
    (hrest : rest ≠ []) : d.page f cursor limit = .ok ((taken ++ [last]).map Prod.fst, last.2) := by
  obtain ⟨n, hfold, hn⟩ := foldlM_pageVisit (s := ⟨[], 0, cursor⟩) limit (taken ++ [last])
    (by simp; omega)
  obtain ⟨e, rest, rfl⟩ := exists_cons_of_ne_nil hrest
  have hnext : n = last.2 := hn last (by simp)
  have hsplit : taken ++ last :: e :: rest = (taken ++ [last]) ++ e :: rest := by simp
  have hlen : (([] : List SettlementDetailRow) ++ (taken ++ [last]).map Prod.fst).length =
      limit := by simp [hfull]
  have hvisit : d.visit f cursor (pageVisit limit) ⟨[], 0, cursor⟩ =
      .error (.pageFull ⟨(taken ++ [last]).map Prod.fst, last.2, last.2⟩) := by
    rw [h, hhits, hsplit, foldlM_append, hfold, hnext]
    show (pageVisit limit ⟨[] ++ (taken ++ [last]).map Prod.fst, 0, last.2⟩ e.1 e.2 >>= fun s =>
      rest.foldlM _ s) = _
    rw [pageVisit, if_pos hlen]
    rfl
  rw [page, if_neg (by omega), hvisit]

theorem exists_full {α : Type} {l : List α} (hlimit : 1 ≤ limit) (h : limit < l.length) :
    ∃ taken last rest, l = taken ++ last :: rest ∧ taken.length + 1 = limit ∧ rest ≠ [] := by
  have hsplit := take_append_drop (limit - 1) l
  cases hdrop : l.drop (limit - 1) with
  | nil =>
    rw [drop_eq_nil_iff] at hdrop
    omega
  | cons last rest =>
    rw [hdrop] at hsplit
    refine ⟨l.take (limit - 1), last, rest, hsplit.symm, by rw [length_take]; omega, ?_⟩
    rintro rfl
    have hlen := congrArg List.length hdrop
    rw [length_drop, length_singleton] at hlen
    omega

/-- The pages of a list of rows: full ones, and the last. -/
structure Cut (limit : Nat) (rows : List SettlementDetailRow)
    (pages : List (List SettlementDetailRow)) : Prop where
  flatten : pages.flatten = rows
  full : ∀ page ∈ pages.dropLast, page.length = limit
  length : ∀ page ∈ pages, page.length ≤ limit

/-- A full page before the pages of the rows that follow. -/
theorem Cut.cons {page rest all : List SettlementDetailRow}
    {pages : List (List SettlementDetailRow)} (h : Cut limit rest pages)
    (hfull : page.length = limit) (hall : page ++ rest = all) : Cut limit all (page :: pages) where
  flatten := by rw [flatten_cons, h.flatten, hall]
  full := by
    intro q hq
    cases pages with
    | nil => cases hq
    | cons first pages =>
      rcases mem_cons.mp hq with rfl | hq
      · exact hfull
      · exact h.full q hq
  length := by
    intro q hq
    rcases mem_cons.mp hq with rfl | hq
    · exact hfull.le
    · exact h.length q hq

/-- **The pages from a cursor on**: reading ends, and gives the rows after the cursor. -/
theorem exists_pages (h : d.Shows f rows) (hlimit : 1 ≤ limit ∧ limit ≤ 200) (cursor : Nat) :
    ∃ pages, (∀ pages', d.Pages f limit cursor pages' ↔ pages' = pages) ∧
      Cut limit ((hits f.Match cursor 0 rows).map Prod.fst) pages := by
  generalize hn : (hits f.Match cursor 0 rows).length = n
  induction n using Nat.strongRecOn generalizing cursor with
  | ind n ih =>
    by_cases hshort : (hits f.Match cursor 0 rows).length ≤ limit
    · have hpage := page_last h hlimit hshort
      refine ⟨[(hits f.Match cursor 0 rows).map Prod.fst],
        fun pages' => ⟨fun hpages => ?_, fun hpages => ?_⟩, ?_⟩
      · cases hpages with
        | last hpage' =>
          rw [hpage] at hpage'
          cases hpage'
          rfl
        | more hpage' hnext _ =>
          rw [hpage] at hpage'
          cases hpage'
          exact absurd rfl hnext
      · rw [hpages]
        exact .last hpage
      · exact ⟨by simp, by simp, by simpa using hshort⟩
    · -- the page takes the first rows, and hands on the number of its last one
      obtain ⟨taken, last, rest, hhits, hfull, hrest⟩ : ∃ taken last rest,
        hits f.Match cursor 0 rows = taken ++ last :: rest ∧
          taken.length + 1 = limit ∧ rest ≠ [] := exists_full hlimit.1 (not_le.mp hshort)
      have hpage := page_full h hlimit hhits hfull hrest
      have hmem : last ∈ hits f.Match cursor 0 rows := by simp [hhits]
      have hlater : hits f.Match last.2 0 rows = rest := hits_rest hhits
      obtain ⟨pages, hpages, hcut⟩ := ih rest.length (by rw [← hn, hhits]; simp; omega) last.2
        (by rw [hlater])
      rw [hlater] at hcut
      refine ⟨(taken ++ [last]).map Prod.fst :: pages,
        fun pages' => ⟨fun hpages' => ?_, fun hpages' => ?_⟩, ?_⟩
      · cases hpages' with
        | last hpage' =>
          rw [hpage] at hpage'
          have hzero : last.2 = 0 := (Prod.mk.inj (Except.ok.inj hpage')).2
          exact absurd hzero (lt_of_mem_hits hmem).ne'
        | more hpage' hnext hlast =>
          rw [hpage] at hpage'
          cases hpage'
          rw [(hpages _).mp hlast]
      · rw [hpages']
        exact .more hpage (lt_of_mem_hits hmem).ne' ((hpages pages).mpr rfl)
      · rw [hhits]
        exact hcut.cons (by simp [hfull]) (by simp)

end DetailArchive

/-! ### The archive of a list of rows -/

/-- The entry of a part is found by its name. -/
theorem lookup_entries {files : List PartFile}
    (h : files.map (fun p => p.part.name) = (List.range files.length).map fun i =>
      partName (i + 1)) :
    ∀ p ∈ files, (files.map fun p => (p.part.name, p.rows)).lookup p.part.name = some p.rows := by
  have hnodup : (files.map fun p => p.part.name).Nodup := by
    rw [h]
    exact nodup_range.map fun i j hij => Nat.succ.inj (partName_injective hij)
  clear h
  induction files with
  | nil => intro p hp; cases hp
  | cons q files ih =>
    intro p hp
    rw [List.map_cons, List.nodup_cons] at hnodup
    rw [List.map_cons, List.lookup_cons]
    rcases mem_cons.mp hp with rfl | hp
    · rw [beq_self_eq_true]
    · have hne : p.part.name ≠ q.part.name := fun heq => hnodup.1 (heq ▸ mem_map_of_mem hp)
      rw [beq_false_of_ne hne]
      exact ih hnodup.2 p hp

/-- **Saved details can be paged and filtered without loss.** The archive of a list of rows
opens, its total is their number, and a part that a filter passes over has no row for the
filter. The pages from the first on end, and are the rows that meet the filter, in order,
each page full but the last. -/
theorem details_paged (currency : String) (written : List SettlementDetailRow)
    (f : SettlementDetailFilter) (limit : Nat)
    (hlimit : 1 ≤ limit ∧ limit ≤ 200) :
    ∃ d, openSettlementDetails (writeSettlementDetailArchive currency written) = .ok d ∧
      d.manifest.total = written.length ∧
      (∀ p ∈ d.manifest.parts, ∃ rows, d.entries.lookup p.name = some rows ∧
        (f.includes p = false → ∀ v ∈ rows, f.Match v = false)) ∧
      ∃ pages, (∀ pages', d.Pages f limit 0 pages' ↔ pages' = pages) ∧
        DetailArchive.Cut limit ((written.filter f.Match).map filled) pages := by
  have hwrote := wrote written
  have hlookup := lookup_entries hwrote.names
  refine ⟨writeSettlementDetailArchive currency written, rfl, hwrote.total, ?_, ?_⟩
  · intro p hp
    obtain ⟨file, hfile, rfl⟩ := mem_map.mp hp
    exact ⟨file.rows, hlookup file hfile, (hwrote.summarized file hfile).not_match⟩
  · have hshows : (writeSettlementDetailArchive currency written).Shows f (written.map filled) := by
      intro σ cursor visit s
      refine (visitParts_eq hlookup hwrote.summarized 0 s).trans ?_
      rw [hwrote.rows]
    obtain ⟨pages, hpages, hcut⟩ := DetailArchive.exists_pages hshows hlimit 0
    have hmatch : f.Match ∘ filled = f.Match := by
      funext v
      exact match_filled f v
    rw [map_hits _ le_rfl, List.filter_map, hmatch] at hcut
    exact ⟨pages, hpages, hcut⟩

private def detailOf (model time : String) : SettlementDetailRow where
  unitPrice := ""
  imageInput := ""
  imageOutput := ""
  audioInput := ""
  audioOutput := ""
  beforeAmount := ""
  discount := ""
  time := time
  requestID := ""
  model := model
  token := "t"
  tokenID := "7"
  input := "10"
  output := "5"
  cacheRead := "0"
  cacheWrite := "0"
  amount := "1.5"

theorem details_paged_three :
    ∃ d, openSettlementDetails (writeSettlementDetailArchive "CNY" [detailOf "a" "10",
      detailOf "b" "11", detailOf "a" "12"]) = .ok d ∧
      ∃ pages, (∀ pages', d.Pages ⟨"", "", "a", ""⟩ 1 0 pages' ↔ pages' = pages) ∧
        DetailArchive.Cut 1 ([detailOf "a" "10", detailOf "a" "12"].map filled) pages := by
  obtain ⟨d, hopen, -, -, pages, hpages, hcut⟩ :=
    details_paged "CNY" [detailOf "a" "10", detailOf "b" "11", detailOf "a" "12"]
      ⟨"", "", "a", ""⟩ 1 (by decide)
  have hfilter : [detailOf "a" "10", detailOf "b" "11", detailOf "a" "12"].filter
      (SettlementDetailFilter.Match ⟨"", "", "a", ""⟩) =
      [detailOf "a" "10", detailOf "a" "12"] := by decide +kernel
  exact ⟨d, hopen, pages, hpages, hcut⟩

end ControlTower.Billing
