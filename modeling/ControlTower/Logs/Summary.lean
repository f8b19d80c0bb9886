import ControlTower.Logs.Engine
import ControlTower.Logs.Lines
import Mathlib.Data.List.Forall2

/-! What the time index says about the records of its file.

A block stands for a group of consecutive records: it spans their bytes, and unless one
of them is unreadable its two times enclose theirs. So the blocks that do not overlap the
interval of a query hold nothing it could show or would have to report
(`prepared_spec`), and a block read on its own gives its group (`parse_slice`). -/
namespace ControlTower.Logs
open Go Data RecordParser List Bool IndexBuild

/-- The bytes of a range. -/
def slice (text : Bytes) (a b : Nat) : Bytes := (text.drop a).take (b - a)

structure Covers (b : TimeBlock) (g : List LogRecord) : Prop where
  nonempty : g ≠ []
  lies : Lie b.start g b.stop
  known : b.unknown = false → b.min.isZero = false ∧ b.max.isZero = false ∧
    ∀ r ∈ g, r.unreadable = false ∧ b.min ≤ r.stamp ∧ r.stamp ≤ b.max

/-- The records fall into the groups of the blocks. -/
def Summarises (bs : List TimeBlock) (rs : List LogRecord) : Prop := ∃ gs, gs.flatten = rs ∧ List.Forall₂ Covers bs gs

theorem Summarises.nil : Summarises [] [] := ⟨[], rfl, .nil⟩

variable {bs : List TimeBlock}

theorem Summarises.concat {rs g : List LogRecord} {b : TimeBlock} (h : Summarises bs rs) (hb : Covers b g) :
    Summarises (bs ++ [b]) (rs ++ g) := by
  obtain ⟨gs, rfl, hgs⟩ := h
  exact ⟨gs ++ [g], by simp, rel_append hgs (.cons hb .nil)⟩

variable {rs : List LogRecord}

/-- The last block and its group. -/
theorem Summarises.last {b : TimeBlock} (h : Summarises (bs ++ [b]) rs) :
    ∃ rs' g, rs = rs' ++ g ∧ Summarises bs rs' ∧ Covers b g := by
  obtain ⟨gs, rfl, hgs⟩ := h
  rcases eq_nil_or_concat gs with rfl | ⟨gs', g, rfl⟩
  · have := hgs.length_eq
    simp at this
  · rw [concat_eq_append] at hgs
    have hlen : bs.length = gs'.length := by simpa using hgs.length_eq
    have hbs := forall₂_take_append _ _ _ hgs
    have hb := forall₂_drop_append _ _ _ hgs
    rw [← hlen, take_left] at hbs
    rw [← hlen, drop_left] at hb
    cases hb with
    | cons hb _ => exact ⟨gs'.flatten, g, by simp, ⟨gs', rfl, hbs⟩, hb⟩

theorem Summarises.lie {a k : Nat} (h : Summarises bs rs) (hrs : Lie a rs k) :
    BlocksLie a bs k := by
  obtain ⟨gs, rfl, hgs⟩ := h
  induction hgs generalizing a with
  | nil => exact hrs
  | @cons b g bs gs hb _ ih =>
    rw [flatten_cons] at hrs
    obtain ⟨m, hg, hrest⟩ := Tiles.split hrs
    obtain ⟨hstart, hstop⟩ := hg.ends hb.lies hb.nonempty
    have hlt := hb.lies.lt hb.nonempty
    refine ⟨hstart.symm, hlt, ?_⟩
    rw [← hstop]
    exact ih hrest

/-! ### Building the index -/

variable {r : LogRecord}

theorem TimeBlock.absorb_known {v : TimeBlock} (h : (v.absorb r).unknown = false) :
    v.unknown = false ∧ r.unreadable = false ∧ r.stamp.isZero = false := by
  simp only [TimeBlock.absorb, or_eq_false_iff] at h
  simp [LogRecord.unreadable, h]

theorem Covers.absorb {v : TimeBlock} {g : List LogRecord} (h : Covers v g) (hr : r.start = v.stop)
    (hlt : r.start < r.stop) : Covers (v.absorb r) (g ++ [r]) where
  nonempty := by simp
  lies := h.lies.append (.single hr hlt rfl)
  known hu := by
    obtain ⟨hv, hread, hzero⟩ := TimeBlock.absorb_known hu
    obtain ⟨hmin, hmax, hall⟩ := h.known hv
    have hnewMin : (v.absorb r).min = if r.stamp < v.min then r.stamp else v.min := by
      simp [TimeBlock.absorb, hzero, hmin]
    have hnewMax : (v.absorb r).max = if v.max < r.stamp then r.stamp else v.max := by
      simp [TimeBlock.absorb, hzero, hmax]
    rw [hnewMin, hnewMax]
    refine ⟨by split <;> assumption, by split <;> assumption, fun r' hr' => ?_⟩
    rcases mem_append.mp hr' with hm | hm
    · obtain ⟨hu', hle, hge⟩ := hall r' hm
      simp only [Time] at hle hge ⊢
      exact ⟨hu', by split <;> omega, by split <;> omega⟩
    · obtain rfl := mem_singleton.mp hm
      simp only [Time]
      exact ⟨hread, by split <;> omega, by split <;> omega⟩

theorem Covers.single (hlt : r.start < r.stop) : Covers ((TimeBlock.range r.start 0).absorb r) [r] where
  nonempty := by simp
  lies := .single rfl hlt rfl
  known hu := by
    obtain ⟨-, hread, hzero⟩ := TimeBlock.absorb_known hu
    have hmin : ((TimeBlock.range r.start 0).absorb r).min = r.stamp := by
      simp [TimeBlock.absorb, TimeBlock.range, hzero, show Time.zero.isZero = true by decide]
    have hmax : ((TimeBlock.range r.start 0).absorb r).max = r.stamp := by
      simp [TimeBlock.absorb, TimeBlock.range, hzero, show Time.zero.isZero = true by decide]
    rw [hmin, hmax]
    refine ⟨hzero, hzero, fun r' hr' => ?_⟩
    obtain rfl := mem_singleton.mp hr'
    exact ⟨hread, Int.le_refl _, Int.le_refl _⟩

theorem Summarises.observe {b : IndexBuild}
    (h : b.disabled = false → Summarises b.blocks rs) (hrs : Lie 0 rs r.start) (hnext : b.next ≤ r.start)
    (hlt : r.start < r.stop) (henabled : (b.observe r).disabled = false) : Summarises (b.observe r).blocks (rs ++ [r]) := by
  have hold : Summarises b.blocks rs := by
    apply h
    cases hd : b.disabled with
    | false => rfl
    | true => rw [observe_disabled hd, hd] at henabled; cases henabled
  rcases observe_cases hnext henabled with ⟨bs, v, hbs, heq⟩ | heq
  · rw [hbs] at hold
    obtain ⟨rs', g, rfl, hrs', hv⟩ := hold.last
    obtain ⟨m, -, hg⟩ := Tiles.split hrs
    have hstop := (hg.ends hv.lies hv.nonempty).2
    rw [heq, append_assoc]
    exact hrs'.concat (hv.absorb hstop hlt)
  · rw [heq]
    exact hold.concat (.single hlt)

theorem Summarises.observeAll {b : IndexBuild} {rs rs' : List LogRecord} {k n : Nat}
    (h : b.disabled = false → Summarises b.blocks rs) (hrs : Lie 0 rs k) (hrs' : Lie k rs' n) (hnext : b.next ≤ k) :
    (b.observeAll rs').disabled = false → Summarises (b.observeAll rs').blocks (rs ++ rs') := by
  induction rs' generalizing b rs k with
  | nil =>
    rw [append_nil]
    exact h
  | cons r rs' ih =>
    obtain ⟨hstart, hlt, htail⟩ := hrs'
    subst hstart
    have hstep := Summarises.observe h hrs hnext hlt
    have := ih hstep (hrs.append (.single rfl hlt rfl)) htail (by rw [observe_next]; omega)
    rwa [append_assoc] at this

/-! ### Reading a block on its own -/

section Slices
variable {format : LineFormat} {text : Bytes}

/-- A group of the file's records, read from its bytes alone. -/
theorem parse_slice {as g cs : List LogRecord} {b : TimeBlock} (h : parse format 0 text = as ++ g ++ cs) (hb : Covers b g) :
    parse format b.start (slice text b.start b.stop) = g := by
  obtain ⟨r, g', rfl⟩ := exists_cons_of_ne_nil hb.nonempty
  have hstart : b.start = r.start := hb.lies.1.symm
  have htiles := parse_tiles format 0 text
  rw [h] at htiles
  obtain ⟨m, hag, hcs⟩ := Tiles.split htiles
  obtain ⟨m', -, hg⟩ := Tiles.split hag
  have hstop : m = b.stop := (hg.ends hb.lies hb.nonempty).2
  cases cs with
  | nil =>
    rw [append_nil] at h
    have hlen : b.stop = text.length := by
      rw [← hstop]
      exact Eq.trans hcs (Nat.zero_add _)
    have hall : slice text b.start b.stop = text.drop b.start := by
      rw [slice, hlen, ← length_drop, take_length]
    rw [hall, hstart]
    exact (parse_split h).2
  | cons c cs =>
    have hc : c.start = b.stop := hcs.1.trans hstop
    have htake := (parse_split h).1
    have := (parse_split htake).2
    rw [drop_take, hc] at this
    rw [slice, hstart]
    exact this

/-- The records of ranges that are read one after the other. -/
def rangeRecords (format : LineFormat) (text : Bytes) (ranges : List TimeBlock) : List LogRecord :=
  ranges.flatMap fun b => parse format b.start (slice text b.start b.stop)

/-- A record that a query of the interval may show or has to report as skipped. -/
def relevant (q : Interval) (r : LogRecord) : Bool :=
  r.unreadable || (!decide (r.stamp < q.fromTime) && decide (r.stamp < q.toTime))

theorem Covers.irrelevant {b : TimeBlock} {g : List LogRecord} {q : Interval} (h : Covers b g) (ho : overlaps b q = false) :
    g.filter (relevant q) = [] := by
  rw [List.filter_eq_nil_iff]
  intro r hr
  simp only [overlaps, Bool.or_eq_false_iff, Bool.and_eq_false_iff, Bool.not_eq_false', decide_eq_true_eq, decide_eq_false_iff_not] at ho
  obtain ⟨hknown, hout⟩ := ho
  obtain ⟨hread, hmin, hmax⟩ := (h.known hknown).2.2 r hr
  simp only [relevant, hread, Bool.false_or, Bool.and_eq_true, Bool.not_eq_true', decide_eq_true_eq, decide_eq_false_iff_not]
  simp only [Time] at *
  omega

/-- Skipping the blocks that do not overlap loses nothing relevant. -/
theorem rangeRecords_filter (as cs : List LogRecord) {bs : List TimeBlock} {gs : List (List LogRecord)} (q : Interval)
    (hgs : List.Forall₂ Covers bs gs) (h : parse format 0 text = as ++ gs.flatten ++ cs) :
    (rangeRecords format text (bs.filter fun b => overlaps b q)).filter (relevant q) = gs.flatten.filter (relevant q) := by
  induction hgs generalizing as with
  | nil => rfl
  | @cons b g bs gs hb _ ih =>
    have hhead : parse format 0 text = as ++ g ++ (gs.flatten ++ cs) := by simpa using h
    have htail : parse format 0 text = (as ++ g) ++ gs.flatten ++ cs := by simpa using h
    rw [flatten_cons, filter_append, ← ih _ htail]
    cases ho : overlaps b q with
    | true =>
      rw [filter_cons_of_pos (by simpa using ho), rangeRecords, flatMap_cons, filter_append,
        parse_slice hhead hb]
      rfl
    | false =>
      rw [filter_cons_of_neg (by simp [ho]), hb.irrelevant ho, nil_append]

end Slices

/-! ### What a query takes from an index -/

/-- The index stands for the records of the file as it was when it was built. -/
structure FileTimeIndex.Sound (c : FileTimeIndex) (format : LineFormat) (content : Bytes) : Prop where
  size : c.snap.size ≤ content.length
  lines : WholeLines (content.take c.snap.size)
  blocks : Summarises c.blocks (parse format 0 (content.take c.snap.size))

section Prepared
variable {c : FileTimeIndex} {format : LineFormat} {content : Bytes}

/-- It goes on to do so while the file grows. -/
theorem FileTimeIndex.Sound.grow (h : c.Sound format content) (more : Bytes) : c.Sound format (content ++ more) := by
  have htake : (content ++ more).take c.snap.size = content.take c.snap.size := take_append_of_le_length h.size
  refine ⟨?_, ?_, ?_⟩
  · have := h.size
    rw [length_append]
    omega
  · rw [htake]
    exact h.lines
  · rw [htake]
    exact h.blocks

theorem FileTimeIndex.Sound.lies (h : c.Sound format content) : c.Lies := by
  have htiles := parse_tiles format 0 (content.take c.snap.size)
  refine ⟨_, ?_, h.blocks.lie htiles⟩
  simp

/-- The records up to the last block stand, and the rest can be read from there. -/
theorem FileTimeIndex.Sound.kept (h : c.Sound format content) :
    ∃ rs, Summarises c.kept rs ∧ Lie 0 rs c.keptStop ∧
      parse format 0 content = rs ++ parse format c.keptStop (content.drop c.keptStop) := by
  rcases eq_nil_or_concat c.blocks with hnil | ⟨bs, b, hbs⟩
  · refine ⟨[], ?_, ?_, ?_⟩ <;> simp only [FileTimeIndex.keptStop, FileTimeIndex.kept, hnil, dropLast_nil,
      List.getLast?_nil, Option.elim_none]
    · exact .nil
    · exact .nil
    · simp
  · rw [concat_eq_append] at hbs
    have hkept : c.kept = bs := by rw [FileTimeIndex.kept, hbs, dropLast_concat]
    have hsum := h.blocks
    rw [hbs] at hsum
    obtain ⟨rs, g, hrs, hbsum, hb⟩ := hsum.last
    obtain ⟨r, g', rfl⟩ := exists_cons_of_ne_nil hb.nonempty
    have htiles := parse_tiles format 0 (content.take c.snap.size)
    rw [hrs] at htiles
    obtain ⟨m, hbefore, hg⟩ := Tiles.split htiles
    have hm : r.start = m := hg.1
    have hstop : c.keptStop = r.start := by
      have hlie : BlocksLie 0 bs m := hbsum.lie hbefore
      have hkeptLie := h.lies.kept
      rw [hkept] at hkeptLie
      rw [hm]
      exact hkeptLie.stop_unique hlie
    refine ⟨rs, hkept ▸ hbsum, ?_, ?_⟩
    · rw [hstop, hm]
      exact hbefore
    · have := parse_extend hrs h.lines (content.drop c.snap.size)
      rwa [take_append_drop, ← hstop] at this

/-- A query that takes its ranges from a sound index misses nothing, and what it starts
to build continues the records before the last range. -/
theorem prepared_spec (q : Interval) {cached : Option FileTimeIndex} (h : ∀ c, cached = some c → c.Sound format content) :
    (rangeRecords format content (prepared q content.length cached).1).filter (relevant q) =
        (parse format 0 content).filter (relevant q) ∧
      ∀ b, (prepared q content.length cached).2 = some b → ∃ rs, Summarises b.blocks rs ∧ Lie 0 rs b.next ∧
        parse format 0 content = rs ++ parse format b.next (content.drop b.next) := by
  have hlast : ∀ k, rangeRecords format content [.range k content.length] = parse format k (content.drop k) := by
    intro k
    simp [rangeRecords, TimeBlock.range, slice, ← length_drop]
  cases cached with
  | none =>
    refine ⟨by rw [prepared, hlast, drop_zero], fun b hb => ?_⟩
    cases hb
    exact ⟨[], .nil, .nil, by simp⟩
  | some c =>
    have hc := h c rfl
    simp only [prepared]
    split
    next hsize =>
      have hall : content.take c.snap.size = content := by rw [← hsize, take_length]
      obtain ⟨gs, hgs, hcovers⟩ := hc.blocks
      rw [hall] at hgs
      refine ⟨?_, fun b hb => by cases hb⟩
      rw [rangeRecords_filter [] [] q hcovers (by simp [hgs]), hgs]
    next hsize =>
      obtain ⟨rs, hsum, hlie, hparse⟩ := hc.kept
      refine ⟨?_, fun b hb => ?_⟩
      · obtain ⟨gs, hgs, hcovers⟩ := hsum
        rw [rangeRecords, flatMap_append, filter_append]
        have hkept := rangeRecords_filter [] _ q hcovers (by rw [nil_append, hgs]; exact hparse)
        have hend := hlast c.keptStop
        rw [rangeRecords] at hkept hend
        rw [hkept, hend, hgs, hparse, filter_append]
      · cases hb
        exact ⟨rs, hsum, hlie, hparse⟩

end Prepared

end ControlTower.Logs
