import ControlTower.Logs.Parser

/-! The parser line by line, and where it can start again.

At the start of a line the parser either has no open record or lets the line decide
about it. A record boundary is a place where a fresh parser goes on as the running one
does: the records of a file are those before the boundary and those that a parser
emits which starts there (`parse_split`), also when the file has grown since
(`parse_extend`). -/
namespace ControlTower.Logs
open Go Data List Option

/-- Empty, or with a newline at its end. -/
def WholeLines (data : Bytes) : Prop := data = [] ∨ data.getLast? = some newline

instance (data : Bytes) : Decidable (WholeLines data) := inferInstanceAs (Decidable (_ ∨ _))

theorem WholeLines.append {a b : Bytes} (ha : WholeLines a) (hb : WholeLines b) : WholeLines (a ++ b) := by
  rcases hb with rfl | hb
  · rwa [append_nil]
  · right
    rw [List.getLast?_append, hb]
    rfl

theorem WholeLines.tail {b : UInt8} {bs : Bytes} (h : WholeLines (b :: bs)) : WholeLines bs := by
  cases bs with
  | nil => exact .inl rfl
  | cons c bs =>
    right
    rcases h with h | h
    · cases h
    · rwa [List.getLast?_cons_cons] at h

theorem parts_flatten (data : Bytes) : (parts data).flatten = data := by
  induction data with
  | nil => rfl
  | cons b bs ih =>
    simp only [parts]
    split
    next => rw [flatten_cons, ih]; rfl
    next =>
      cases hps : parts bs with
      | nil =>
        rw [hps] at ih
        rw [← ih]
        rfl
      | cons part rest =>
        rw [hps] at ih
        rw [← ih]
        rfl

theorem parts_append {a : Bytes} (ha : WholeLines a) (b : Bytes) : parts (a ++ b) = parts a ++ parts b := by
  induction a with
  | nil => rfl
  | cons x a ih =>
    have ih := ih ha.tail
    simp only [cons_append, parts, ih]
    split
    next => rfl
    next hx =>
      cases hps : parts a with
      | nil =>
        -- The last byte of whole lines is a newline.
        have hnil : a = [] := by rw [← parts_flatten a, hps]; rfl
        subst hnil
        rcases ha with ha | ha
        · cases ha
        · exact absurd (by simpa using ha) hx
      | cons part rest => rfl

namespace RecordParser
variable (format : LineFormat)

/-- At the start of a line. -/
structure Fresh (p : RecordParser) : Prop where
  wf : p.Wf
  fragment : p.fragment = []
  longLine : p.longLine = false

theorem fresh_start (pos : Nat) : Fresh (start pos) := ⟨.start pos, rfl, rfl⟩

variable {p : RecordParser}

theorem Fresh.lineStart (h : p.Fresh) : p.lineStart = p.offset := h.wf.whole h.fragment h.longLine

/-- Without its open record the parser is a new one. -/
theorem Fresh.cleared (h : p.Fresh) : p.cleared = start p.offset := by
  have hl := h.lineStart
  have hf := h.fragment
  have hb := h.longLine
  cases p
  simp_all [RecordParser.cleared, start]

theorem Fresh.eq_start (h : p.Fresh) (hr : p.record = none) : p = start p.offset := by
  rw [← h.cleared]
  have hb := h.wf.idle hr
  cases p
  simp_all [RecordParser.cleared]

def lineStep (p : RecordParser) (part : Bytes) : RecordParser × List LogRecord := (p.take part).line format

theorem Fresh.step (h : p.Fresh) {part : Bytes} (hne : part ≠ []) : (p.lineStep format part).1.Fresh := by
  obtain ⟨hwf, hlt⟩ := h.wf.take part hne
  obtain ⟨-, -, hfrag, hlong⟩ := line_fields format (p.take part)
  exact ⟨(hwf.line format (by rwa [take_lineStart])).1, hfrag, hlong⟩

theorem lineStep_offset (p : RecordParser) (part : Bytes) : (p.lineStep format part).1.offset = p.offset + part.length := by
  rw [lineStep, (line_fields format _).1, take_offset]

/-- All records of the lines, the one open at the end included. -/
def foldLines (p : RecordParser) : List Bytes → List LogRecord
  | [] => p.finished p.offset
  | part :: ps => (p.lineStep format part).2 ++ foldLines (p.lineStep format part).1 ps

/-- Lines as `parts` cuts them: only the last one may be without its newline. -/
def CutLines : List Bytes → Prop
  | [] => True
  | [part] => part ≠ []
  | part :: ps => part.getLast? = some newline ∧ CutLines ps

theorem cutLines_parts (data : Bytes) : CutLines (parts data) := by
  induction data with
  | nil => exact True.intro
  | cons b bs ih =>
    simp only [parts]
    split
    next hb =>
      cases hps : parts bs with
      | nil => simp [CutLines]
      | cons part rest =>
        rw [hps] at ih
        exact ⟨by simp [hb], ih⟩
    next =>
      cases hps : parts bs with
      | nil => simp [CutLines]
      | cons part rest =>
        rw [hps] at ih
        cases rest with
        | nil => simp [CutLines]
        | cons next rest =>
          refine ⟨?_, ih.2⟩
          have := ih.1
          cases part with
          | nil => cases this
          | cons c part => rwa [List.getLast?_cons_cons]

theorem parts_head {text part : Bytes} {tail : List Bytes} (h : parts text = part :: tail) :
    parts part = [part] ∧ parts tail.flatten = tail := by
  induction text generalizing part tail with
  | nil => cases h
  | cons b bs ih =>
    simp only [parts] at h
    split at h
    next hb =>
      cases h
      exact ⟨by simp [parts, hb], by rw [parts_flatten]⟩
    next hb =>
      cases hps : parts bs with
      | nil =>
        rw [hps] at h
        cases h
        exact ⟨by simp [parts, hb], rfl⟩
      | cons q qs =>
        rw [hps] at h
        cases h
        obtain ⟨hq, hqs⟩ := ih hps
        exact ⟨by simp [parts, hb, hq], hqs⟩

/-- Lines that were cut once are cut the same way again. -/
theorem parts_cut {text : Bytes} {ps₁ ps₂ : List Bytes} (h : parts text = ps₁ ++ ps₂) :
    parts ps₁.flatten = ps₁ ∧ parts ps₂.flatten = ps₂ := by
  induction ps₁ generalizing text with
  | nil =>
    rw [nil_append] at h
    exact ⟨rfl, by rw [← h, parts_flatten]⟩
  | cons part qs ih =>
    obtain ⟨hpart, htail⟩ := parts_head h
    obtain ⟨hqs, hps₂⟩ := ih htail
    refine ⟨?_, hps₂⟩
    rw [flatten_cons]
    cases qs with
    | nil => simpa using hpart
    | cons q qs =>
      have hcut := cutLines_parts text
      rw [h] at hcut
      have hline : WholeLines part := .inr hcut.1
      rw [parts_append hline, hpart, hqs]
      rfl

/-- The end of a range closes an open line as a newline would. -/
theorem Fresh.feedParts_close (h : p.Fresh) {ps : List Bytes} (hps : CutLines ps) :
    (feedParts format p ps).2 ++ (feedParts format p ps).1.close format = foldLines format p ps := by
  induction ps generalizing p with
  | nil =>
    have : ¬ (p.fragment ≠ [] ∨ p.longLine = true) := by simp [h.fragment, h.longLine]
    rw [feedParts, foldLines, nil_append, close, if_neg this]
  | cons part ps ih =>
    by_cases hline : part.getLast? = some newline
    · have hne : part ≠ [] := by rintro rfl; cases hline
      have htail : CutLines ps := by
        cases ps with
        | nil => exact True.intro
        | cons q ps => exact hps.2
      have := ih (h.step format hne) htail
      rw [foldLines, ← this]
      simp only [feedParts, if_pos hline, append_assoc, lineStep]
    · cases ps with
      | nil =>
        have hne : part ≠ [] := hps
        have hpart : (p.take part).fragment ≠ [] ∨ (p.take part).longLine = true := by
          simp only [RecordParser.take, h.longLine, h.fragment]
          split_ifs <;> simp_all
        simp only [feedParts, if_neg hline, foldLines, lineStep, close, if_pos hpart, append_nil, nil_append]
      | cons q ps => exact absurd hps.1 hline

theorem Fresh.rest_eq (h : p.Fresh) (data : Bytes) :
    p.rest format data = foldLines format p (parts data) := by
  rw [← h.feedParts_close format (cutLines_parts data), feedParts_eq, rest]

end RecordParser

open RecordParser

theorem parse_eq (format : LineFormat) (pos : Nat) (data : Bytes) :
    parse format pos data = foldLines format (start pos) (parts data) :=
  (fresh_start pos).rest_eq format data

namespace RecordParser
variable (format : LineFormat)

/-- The line ends the record before it, or there is none. -/
def Restarts (p : RecordParser) (part : Bytes) : Prop := p.record = none ∨ (p.take part).breaks format = true

variable {p : RecordParser} {part : Bytes}

/-- Where a line ends the record before it, a new parser goes on as the running one does. -/
theorem Fresh.lineStep_restarts (h : p.Fresh) (hr : Restarts format p part) : p.lineStep format part =
      (((start p.offset).lineStep format part).1, p.finished p.offset ++ ((start p.offset).lineStep format part).2) := by
  rcases hr with hr | hb
  · have : p.finished p.offset = [] := by simp [finished, hr]
    rw [this, nil_append, ← h.eq_start hr]
  · rw [lineStep, line_of_breaks format hb, take_cleared, h.cleared, take_finished, take_lineStart, h.lineStart]
    rfl

theorem Fresh.foldLines_restarts (h : p.Fresh) (hr : Restarts format p part) (ps : List Bytes) :
    foldLines format p (part :: ps) = p.finished p.offset ++ foldLines format (start p.offset) (part :: ps) := by
  simp only [foldLines, h.lineStep_restarts format hr, append_assoc]

/-- A line that does not end the open record continues it. -/
theorem Fresh.lineStep_continues (hr : ¬ Restarts format p part) : (p.lineStep format part).2 = [] ∧
      ∃ r, (p.lineStep format part).1.record = some r ∧ r.start = p.origin := by
  have hb : (p.take part).breaks format = false := by simpa using fun hb => hr (.inr hb)
  obtain ⟨r, hrec, hstart⟩ := addLine_start (p.take part) (p.take part).text
  rw [take_origin] at hstart
  rw [lineStep, line_of_not_breaks format hb]
  exact ⟨rfl, r, hrec, hstart⟩

/-- The first line of a new parser: a long one is a record of its own, any other opens one. -/
theorem lineStep_start (pos : Nat) (part : Bytes) :
    (∃ r, ((start pos).lineStep format part).2 = [r] ∧ ((start pos).lineStep format part).1 = start (pos + part.length)) ∨
      (((start pos).lineStep format part).2 = [] ∧
        ∃ r, ((start pos).lineStep format part).1.record = some r ∧ r.start = pos) := by
  have hcl : (start pos).cleared.take part = (start pos).take part := rfl
  have h := line_cleared format ((start pos).take part)
  rw [take_cleared, hcl, take_offset, take_lineStart] at h
  rcases h with ⟨-, hout, hstate⟩ | ⟨-, hout, r, hr, hstart⟩
  · exact .inl ⟨_, hout, hstate⟩
  · exact .inr ⟨hout, r, hr, hstart⟩

variable {ps : List Bytes}

theorem Fresh.foldLines_lie (h : p.Fresh) (hps : ∀ part ∈ ps, part ≠ []) :
    Lie p.origin (foldLines format p ps) (p.offset + ps.flatten.length) := by
  induction ps generalizing p with
  | nil => exact h.wf.finished (Nat.le_of_eq h.lineStart) fun _ => h.lineStart
  | cons part ps ih =>
    have hne := hps part mem_cons_self
    obtain ⟨hwf, hlt⟩ := h.wf.take part hne
    have hline := (hwf.line format (by rwa [take_lineStart])).2
    have hrest := ih (h.step format hne) fun q hq => hps q (mem_cons_of_mem _ hq)
    rw [take_origin] at hline
    rw [lineStep_offset] at hrest
    rw [flatten_cons, length_append, ← Nat.add_assoc]
    exact hline.append hrest

/-- `ps` can be cut where the record `b` starts, and a new parser can go on there,
whatever lines follow. -/
def CutAt (p : RecordParser) (ps : List Bytes) (as : List LogRecord) (b : LogRecord) : Prop :=
  ∃ ps₁ ps₂, ps = ps₁ ++ ps₂ ∧ ps₂ ≠ [] ∧ b.start = p.offset + ps₁.flatten.length ∧ foldLines format p ps₁ = as ∧
    ∀ more, foldLines format p (ps ++ more) = as ++ foldLines format (start b.start) (ps₂ ++ more)

variable {b : LogRecord}

/-- A cut among the later lines. -/
theorem CutAt.cons {as : List LogRecord} (h : CutAt format (p.lineStep format part).1 ps as b) :
    CutAt format p (part :: ps) ((p.lineStep format part).2 ++ as) b := by
  obtain ⟨ps₁, ps₂, rfl, hne, hstart, has, hmore⟩ := h
  refine ⟨part :: ps₁, ps₂, rfl, hne, ?_, ?_, fun more => ?_⟩
  · rw [hstart, lineStep_offset, flatten_cons, length_append, Nat.add_assoc]
  · rw [foldLines, has]
  · rw [cons_append, foldLines, hmore, append_assoc]

/-- A cut of a parser that starts anew, for one that ends its record there. -/
theorem CutAt.of_restarts (h : p.Fresh) (hr : Restarts format p part)
    {as : List LogRecord} (hcut : CutAt format (start p.offset) (part :: ps) as b) :
    CutAt format p (part :: ps) (p.finished p.offset ++ as) b := by
  obtain ⟨ps₁, ps₂, heq, hne, hstart, has, hmore⟩ := hcut
  refine ⟨ps₁, ps₂, heq, hne, hstart, ?_, fun more => ?_⟩
  · cases ps₁ with
    | nil =>
      rw [← has]
      simp [foldLines, finished, start]
    | cons q qs =>
      cases heq
      rw [h.foldLines_restarts format hr, has]
  · rw [cons_append, h.foldLines_restarts format hr, ← cons_append, hmore, append_assoc]

/-- Every record of the lines is where a new parser can start, but for the one that was
open from the beginning. -/
theorem Fresh.split (h : p.Fresh) (hps : ∀ part ∈ ps, part ≠ []) {as bs : List LogRecord}
    (heq : foldLines format p ps = as ++ b :: bs) :
    (as = [] ∧ ∃ r, p.record = some r ∧ b.start = r.start) ∨ CutAt format p ps as b := by
  induction ps generalizing p as with
  | nil =>
    left
    cases hr : p.record with
    | none => simp [foldLines, finished, hr] at heq
    | some r =>
      simp only [foldLines, finished, hr] at heq
      cases as with
      | nil =>
        cases heq
        exact ⟨rfl, r, rfl, rfl⟩
      | cons a as => simp at heq
  | cons part ps ih =>
    have hne := hps part mem_cons_self
    have hps' : ∀ q ∈ ps, q ≠ [] := fun q hq => hps q (mem_cons_of_mem _ hq)
    by_cases hr : Restarts format p part
    · -- From here on as a new parser: first for that one.
      have hnew : ∀ as, foldLines format (start p.offset) (part :: ps) = as ++ b :: bs →
          CutAt format (start p.offset) (part :: ps) as b := by
        intro as heq
        cases as with
        | nil =>
          have hlie := (fresh_start p.offset).foldLines_lie format hps
          rw [heq] at hlie
          have hb : b.start = p.offset := hlie.1
          refine ⟨[], part :: ps, rfl, by simp, by simpa [start] using hb, rfl, fun more => ?_⟩
          rw [hb]
          rfl
        | cons a as =>
          rw [foldLines] at heq
          have hfresh := (fresh_start p.offset).step format hne
          rcases lineStep_start format p.offset part with ⟨r, hout, hstate⟩ | ⟨hout, r, hrec, -⟩
          · rw [hout, singleton_append, cons_append] at heq
            injection heq with ha has
            rcases ih hfresh hps' has with ⟨-, r', hr', -⟩ | hcut
            · rw [hstate] at hr'
              cases hr'
            · have := hcut.cons
              rwa [hout, ha] at this
          · rw [hout, nil_append] at heq
            rcases ih hfresh hps' heq with ⟨hnil, -⟩ | hcut
            · cases hnil
            · have := hcut.cons
              rwa [hout, nil_append] at this
      rw [h.foldLines_restarts format hr] at heq
      cases hrec : p.record with
      | none =>
        have hfin : p.finished p.offset = [] := by simp [finished, hrec]
        rw [hfin, nil_append] at heq
        have := CutAt.of_restarts format h hr (hnew as heq)
        rw [hfin, nil_append] at this
        exact .inr this
      | some r =>
        have hfin : p.finished p.offset = [{ r with stop := p.offset }] := by simp [finished, hrec]
        rw [hfin, singleton_append] at heq
        cases as with
        | nil =>
          injection heq with hb
          exact .inl ⟨rfl, r, rfl, by rw [← hb]⟩
        | cons a as =>
          injection heq with ha has
          have := CutAt.of_restarts format h hr (hnew as has)
          rw [hfin, singleton_append, ha] at this
          exact .inr this
    · obtain ⟨hout, r, hrec, hstart⟩ := Fresh.lineStep_continues format hr
      rw [foldLines, hout, nil_append] at heq
      rcases ih (h.step format hne) hps' heq with ⟨hnil, r', hr', hb⟩ | hcut
      · left
        cases hp : p.record with
        | none => exact absurd (.inl hp) hr
        | some r₀ =>
          refine ⟨hnil, r₀, rfl, ?_⟩
          rw [hrec] at hr'
          cases hr'
          rw [hb, hstart, origin_of_record hp]
      · have := hcut.cons
        rw [hout, nil_append] at this
        exact .inr this

end RecordParser

/-! ### The lines of the records -/

/-- A line without its end. -/
def trimmed (part : Bytes) : Bytes := trimSuffix (trimSuffix part newline) 13

/-- The lines of a file and where they start. -/
def fileLines : Nat → List Bytes → List LogLine
  | _, [] => []
  | pos, part :: ps => ⟨trimmed part, pos⟩ :: fileLines (pos + part.length) ps

namespace RecordParser
variable (format : LineFormat)

/-- The lines of the open record. -/
def openLines (p : RecordParser) : List LogLine := p.record.elim [] LogRecord.lines

theorem finished_lines (p : RecordParser) (stop : Nat) : (p.finished stop).flatMap LogRecord.lines = p.openLines := by
  cases hr : p.record <;> simp [finished, openLines, hr]

theorem addLine_lines (p : RecordParser) (text : Bytes) :
    (p.addLine text).openLines.Sublist (p.openLines ++ [⟨text, p.lineStart⟩]) := by
  simp only [openLines, addLine]
  cases hr : p.record with
  | none =>
    simp only [getD_none, elim_some, elim_none]
    split_ifs <;> simp_all
  | some r =>
    simp only [getD_some, elim_some]
    split_ifs <;> simp_all

variable {p : RecordParser}

theorem Fresh.take_text (h : p.Fresh) {part : Bytes} (hl : (p.take part).longLine = false) :
    (p.take part).text = trimmed part := by
  have hf : (p.take part).fragment = part := by
    simp only [take, h.longLine, h.fragment] at hl ⊢
    split_ifs at hl ⊢ <;> simp_all
  rw [text, hf, trimmed]

/-- What a line adds to the lines of the records is at most itself. -/
theorem Fresh.lineStep_lines (h : p.Fresh) (part : Bytes) :
    ((p.lineStep format part).2.flatMap LogRecord.lines ++ (p.lineStep format part).1.openLines).Sublist
      (p.openLines ++ [⟨trimmed part, p.offset⟩]) := by
  have hopen : (p.take part).openLines = p.openLines := by simp [openLines]
  have hstart : (p.take part).lineStart = p.offset := by rw [take_lineStart, h.lineStart]
  cases hb : (p.take part).breaks format with
  | false =>
    have hl : (p.take part).longLine = false := by
      simp only [breaks, Bool.or_eq_false_iff] at hb
      exact hb.1.1.2
    have hadd := addLine_lines (p.take part) (p.take part).text
    rw [hopen, hstart, h.take_text hl] at hadd
    rw [lineStep, line_of_not_breaks format hb, h.take_text hl]
    exact hadd
  | true =>
    rw [lineStep, line_of_breaks format hb, flatMap_append, finished_lines, hopen, append_assoc]
    refine List.Sublist.append (List.Sublist.refl _) ?_
    cases hl : (p.take part).longLine with
    | true =>
      rcases line_cleared format (p.take part) with ⟨-, hout, hstate⟩ | ⟨hl', -⟩
      · simp [hout, hstate, openLines, start]
      · rw [hl] at hl'
        cases hl'
    | false =>
      obtain ⟨q, hempty, hq, hrecord, hout⟩ := line_cleared_short format hl
      have hadd := addLine_lines q (p.take part).text
      have hnone : q.openLines = [] := by
        rcases hempty with hr | ⟨stamp, hr⟩ <;> simp [openLines, hr]
      rw [hnone, hq, hstart, h.take_text hl, nil_append] at hadd
      rw [hout, flatMap_nil, nil_append]
      simpa only [openLines, hrecord, h.take_text hl] using hadd

theorem Fresh.foldLines_lines (h : p.Fresh) {ps : List Bytes} (hps : ∀ part ∈ ps, part ≠ []) :
    ((foldLines format p ps).flatMap LogRecord.lines).Sublist (p.openLines ++ fileLines p.offset ps) := by
  induction ps generalizing p with
  | nil =>
    rw [foldLines, finished_lines]
    exact sublist_append_left _ _
  | cons part ps ih =>
    have hne := hps part mem_cons_self
    have hrest := ih (h.step format hne) fun q hq => hps q (mem_cons_of_mem _ hq)
    rw [lineStep_offset] at hrest
    rw [foldLines, flatMap_append]
    refine (List.Sublist.append (List.Sublist.refl _) hrest).trans ?_
    rw [fileLines, ← append_assoc, append_cons p.openLines]
    exact List.Sublist.append (h.lineStep_lines format part) (List.Sublist.refl _)

end RecordParser

/-- The lines of the records are lines of the file, in their order, each at most once. -/
theorem parse_lines (format : LineFormat) (text : Bytes) :
    ((parse format 0 text).flatMap LogRecord.lines).Sublist (fileLines 0 (parts text)) := by
  rw [parse_eq]
  exact (fresh_start 0).foldLines_lines format fun part hp => parts_ne_nil hp

section Boundary
variable {format : LineFormat} {text : Bytes} {as bs : List LogRecord} {b : LogRecord}

variable (h : parse format 0 text = as ++ b :: bs)
include h

theorem parse_cutAt : CutAt format (start 0) (parts text) as b := by
  rw [parse_eq] at h
  rcases (fresh_start 0).split format (fun part hp => parts_ne_nil hp) h with ⟨-, r, hr, -⟩ | hcut
  · cases hr
  · exact hcut

/-- The records before a boundary and from it on. -/
theorem parse_split :
    parse format 0 (text.take b.start) = as ∧ parse format b.start (text.drop b.start) = b :: bs := by
  obtain ⟨ps₁, ps₂, hps, -, hstart, has, hmore⟩ := parse_cutAt h
  obtain ⟨h₁, h₂⟩ := parts_cut hps
  have htext : text = ps₁.flatten ++ ps₂.flatten := by rw [← flatten_append, ← hps, parts_flatten]
  have hlen : b.start = ps₁.flatten.length := by simpa [start] using hstart
  have hall := hmore []
  rw [append_nil, append_nil, ← parse_eq, h] at hall
  constructor
  · rw [htext, hlen, take_left, parse_eq, h₁, has]
  · rw [htext, hlen, drop_left, ← hlen, parse_eq, h₂]
    exact (append_cancel_left hall).symm

/-- A boundary stays one when whole lines are followed by more. -/
theorem parse_extend (hlines : WholeLines text) (more : Bytes) :
    parse format 0 (text ++ more) = as ++ parse format b.start ((text ++ more).drop b.start) := by
  obtain ⟨ps₁, ps₂, hps, -, hstart, -, hmore⟩ := parse_cutAt h
  have hall : parts (text ++ more) = ps₁ ++ (ps₂ ++ parts more) := by
    rw [parts_append hlines, hps, append_assoc]
  have htext : text ++ more = ps₁.flatten ++ (ps₂ ++ parts more).flatten := by
    rw [← flatten_append, ← hall, parts_flatten]
  have hlen : b.start = ps₁.flatten.length := by simpa [start] using hstart
  have hrest : parts ((text ++ more).drop b.start) = ps₂ ++ parts more := by
    rw [htext, hlen, drop_left]
    exact (parts_cut hall).2
  rw [parse_eq, parse_eq, hrest, parts_append hlines]
  exact hmore (parts more)

end Boundary

end ControlTower.Logs
