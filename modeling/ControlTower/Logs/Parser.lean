import ControlTower.Data.Tiling
import ControlTower.Go.Time

/-! The record parser of the container logs.

A file is read in pieces of any size. The parser collects the bytes of a line and
decides at its end whether the line opens a record or continues the one before it;
a record ends where the next one starts. The state survives between two pieces.

`feed` is the loop of the source over a piece. `run` and `emitted` take one byte at a
time: what is emitted does not depend on how the bytes were cut (`feed_eq`), and the
records tile the bytes that were read (`parse_tiles`). -/
namespace ControlTower.Logs
open Go Data List Option

abbrev Bytes := List UInt8

def newline : UInt8 := 10

/-- `strings.TrimSuffix` with a text of one byte. -/
def trimSuffix (s : Bytes) (b : UInt8) : Bytes := if s.getLast? = some b then s.dropLast else s

structure LogLine where
  text : Bytes
  offset : Nat
  deriving DecidableEq

structure LogRecord where
  start : Nat
  stop : Nat
  stamp : Time
  lines : List LogLine
  oversized : Bool
  deriving DecidableEq

/-- What `parserForSource` sets and the two tests of `line` on a text without a time: a
JSON object, or a bracket with a time in it. -/
structure LineFormat where
  parseTime : Bytes → Option Time
  opens : Bytes → Bool
  singleLine : Bool

structure RecordParser where
  offset : Nat
  lineStart : Nat
  fragment : Bytes
  longLine : Bool
  record : Option LogRecord
  recordBytes : Nat

def maxRecordBytes : Nat := 262144

def maxRecordLines : Nat := 2000

namespace RecordParser

/-- A parser that starts reading at a position of the file. -/
def start (pos : Nat) : RecordParser := ⟨pos, pos, [], false, none, 0⟩

def text (p : RecordParser) : Bytes := trimSuffix (trimSuffix p.fragment newline) 13

/-- The state after `finish`. -/
def cleared (p : RecordParser) : RecordParser := { p with record := none, recordBytes := 0 }

/-- What `finish` emits. -/
def finished (p : RecordParser) (stop : Nat) : List LogRecord :=
  match p.record with
  | none => []
  | some r => [{ r with stop := stop }]

/-- The line joins the open record, or opens one without a time. -/
def addLine (p : RecordParser) (text : Bytes) : RecordParser :=
  let r := p.record.getD ⟨p.lineStart, 0, Time.zero, [], false⟩
  let bytes := p.recordBytes + text.length + 1
  let r := if bytes > maxRecordBytes ∨ r.lines.length ≥ maxRecordLines then { r with oversized := true, lines := [] } else r
  let r := if r.oversized then r else { r with lines := r.lines ++ [⟨text, p.lineStart⟩] }
  { p with record := some r, recordBytes := bytes }

variable (format : LineFormat)

def line (p : RecordParser) : RecordParser × List LogRecord :=
  let text := p.text
  let (p, before) := if format.singleLine then (p.cleared, p.finished p.lineStart) else (p, [])
  let (p, ended) :=
    if p.longLine then
      (p.cleared, p.finished p.lineStart ++ [⟨p.lineStart, p.offset, Time.zero, [], true⟩])
    else match format.parseTime text with
      | some stamp => ({ p.cleared with record := some ⟨p.lineStart, 0, stamp, [], false⟩ }, p.finished p.lineStart)
      | none => if format.opens text then (p.cleared, p.finished p.lineStart) else (p, [])
  let p := if p.longLine then p else p.addLine text
  ({ p with fragment := [], longLine := false, lineStart := p.offset }, before ++ ended)

/-- A piece of a line joins the fragment. -/
def take (p : RecordParser) (part : Bytes) : RecordParser :=
  let p := { p with offset := p.offset + part.length }
  if p.longLine then p
  else if p.fragment.length + part.length > maxRecordBytes then { p with fragment := [], longLine := true }
  else { p with fragment := p.fragment ++ part }

end RecordParser

/-- A piece of a file, cut after every newline. -/
def parts : Bytes → List Bytes
  | [] => []
  | b :: bs =>
    if b = newline then [b] :: parts bs
    else match parts bs with
      | [] => [[b]]
      | part :: rest => (b :: part) :: rest

namespace RecordParser
variable (format : LineFormat)

def feedParts (p : RecordParser) : List Bytes → RecordParser × List LogRecord
  | [] => (p, [])
  | part :: rest =>
    let (p, a) := if part.getLast? = some newline then (p.take part).line format else (p.take part, [])
    let (p, b) := feedParts p rest
    (p, a ++ b)

/-- The end of the range: an open line, then the open record. -/
def close (p : RecordParser) : List LogRecord :=
  if p.fragment ≠ [] ∨ p.longLine = true then
    (p.line format).2 ++ (p.line format).1.finished (p.line format).1.offset
  else p.finished p.offset

def feed (p : RecordParser) (data : Bytes) (final : Bool) : RecordParser × List LogRecord :=
  let (q, out) := feedParts format p (parts data)
  (q, if final then out ++ q.close format else out)

/-! ### One byte at a time -/

def next (p : RecordParser) (b : UInt8) : RecordParser :=
  if b = newline then ((p.take [b]).line format).1 else p.take [b]

def out (p : RecordParser) (b : UInt8) : List LogRecord :=
  if b = newline then ((p.take [b]).line format).2 else []

def run (p : RecordParser) : Bytes → RecordParser
  | [] => p
  | b :: bs => run (p.next format b) bs

def emitted (p : RecordParser) : Bytes → List LogRecord
  | [] => []
  | b :: bs => p.out format b ++ emitted (p.next format b) bs

/-- What is still emitted when the range ends after these bytes. -/
def rest (p : RecordParser) (data : Bytes) : List LogRecord := p.emitted format data ++ (p.run format data).close format

theorem run_append (p : RecordParser) (a b : Bytes) : p.run format (a ++ b) = (p.run format a).run format b := by
  induction a generalizing p with
  | nil => rfl
  | cons x a ih => exact ih _

theorem emitted_append (p : RecordParser) (a b : Bytes) :
    p.emitted format (a ++ b) = p.emitted format a ++ (p.run format a).emitted format b := by
  induction a generalizing p with
  | nil => rfl
  | cons x a ih => simp only [cons_append, emitted, run, ih, append_assoc]

theorem rest_append (p : RecordParser) (a b : Bytes) :
    p.rest format (a ++ b) = p.emitted format a ++ (p.run format a).rest format b := by
  simp only [rest, run_append, emitted_append, append_assoc]

theorem take_take (p : RecordParser) (a b : Bytes) : (p.take a).take b = p.take (a ++ b) := by
  simp only [take, length_append]
  by_cases hl : p.longLine = true
  · simp [hl, Nat.add_assoc]
  · by_cases ha : p.fragment.length + a.length > maxRecordBytes
    · have : p.fragment.length + (a.length + b.length) > maxRecordBytes := by omega
      simp [hl, ha, this, Nat.add_assoc]
    · by_cases hb : p.fragment.length + (a.length + b.length) > maxRecordBytes
      · have : p.fragment.length + a.length + b.length > maxRecordBytes := by omega
        simp [hl, ha, hb, Nat.add_assoc]
      · have : ¬ p.fragment.length + a.length + b.length > maxRecordBytes := by omega
        simp [hl, ha, hb, Nat.add_assoc]

/-- A byte in front of a piece. -/
theorem feedParts_cons (p : RecordParser) (b : UInt8) (part : Bytes) (hp : part ≠ []) (ps : List Bytes) :
    feedParts format p ((b :: part) :: ps) = feedParts format (p.take [b]) (part :: ps) := by
  have hlast : (b :: part).getLast? = part.getLast? := by
    cases part with
    | nil => exact absurd rfl hp
    | cons c part => simp [List.getLast?_cons_cons]
  have htake : p.take (b :: part) = (p.take [b]).take part := by rw [take_take]; rfl
  simp only [feedParts, hlast, htake]

theorem parts_ne_nil {data part : Bytes} (h : part ∈ parts data) : part ≠ [] := by
  induction data generalizing part with
  | nil => cases h
  | cons b bs ih =>
    simp only [parts] at h
    split at h
    next =>
      cases h with
      | head => simp
      | tail _ h => exact ih h
    next =>
      split at h
      next => simp_all
      next q qs hq =>
        cases h with
        | head => simp
        | tail _ h => exact ih (hq ▸ mem_cons_of_mem _ h)

theorem feedParts_eq (p : RecordParser) (data : Bytes) :
    feedParts format p (parts data) = (p.run format data, p.emitted format data) := by
  induction data generalizing p with
  | nil => rfl
  | cons b bs ih =>
    by_cases hb : b = newline
    · subst hb
      simp only [parts, if_true, feedParts, List.getLast?_singleton, ih, run, emitted, next, out]
    · have hrun : p.run format (b :: bs) = (p.take [b]).run format bs := by simp [run, next, hb]
      have hout : p.emitted format (b :: bs) = (p.take [b]).emitted format bs := by simp [emitted, out, next, hb]
      rw [hrun, hout, ← ih (p.take [b])]
      simp only [parts, hb, if_false]
      cases hps : parts bs with
      | nil => simp [feedParts, hb]
      | cons part rest =>
        have hne : part ≠ [] := parts_ne_nil (hps ▸ mem_cons_self)
        exact feedParts_cons format p b part hne rest

/-- The loop over a piece, byte by byte. -/
theorem feed_eq (p : RecordParser) (data : Bytes) (final : Bool) :
    p.feed format data final =
      (p.run format data, if final then p.rest format data else p.emitted format data) := by
  simp only [feed, feedParts_eq, rest]

/-! ### Where records lie -/

/-- Where the open record starts, or the next one will. -/
def origin (p : RecordParser) : Nat :=
  match p.record with
  | none => p.lineStart
  | some r => r.start

structure Wf (p : RecordParser) : Prop where
  behind : p.lineStart ≤ p.offset
  opened : ∀ r, p.record = some r → r.start < p.lineStart
  idle : p.record = none → p.recordBytes = 0
  whole : p.fragment = [] → p.longLine = false → p.lineStart = p.offset
  partway : p.fragment ≠ [] ∨ p.longLine = true → p.lineStart < p.offset

theorem Wf.start (pos : Nat) : Wf (start pos) :=
  ⟨Nat.le_refl _, nofun, fun _ => rfl, fun _ _ => rfl, by simp [RecordParser.start]⟩

/-- The line ends the record before it. -/
def breaks (p : RecordParser) : Bool :=
  format.singleLine || p.longLine || (format.parseTime p.text).isSome || format.opens p.text

@[simp] theorem cleared_lineStart (p : RecordParser) : p.cleared.lineStart = p.lineStart := rfl
@[simp] theorem cleared_offset (p : RecordParser) : p.cleared.offset = p.offset := rfl
@[simp] theorem cleared_longLine (p : RecordParser) : p.cleared.longLine = p.longLine := rfl
@[simp] theorem cleared_cleared (p : RecordParser) : p.cleared.cleared = p.cleared := rfl
@[simp] theorem cleared_text (p : RecordParser) : p.cleared.text = p.text := rfl
@[simp] theorem finished_cleared (p : RecordParser) (stop : Nat) : p.cleared.finished stop = [] := rfl

variable {p : RecordParser}

/-- A line that ends the record before it goes on as if there had been none. -/
theorem line_of_breaks (h : p.breaks format = true) :
    p.line format = ((p.cleared.line format).1, p.finished p.lineStart ++ (p.cleared.line format).2) := by
  simp only [breaks, Bool.or_eq_true] at h
  by_cases hs : format.singleLine = true
  · simp [line, hs]
  · by_cases hl : p.longLine = true
    · simp [line, hs, hl]
    · cases ht : format.parseTime p.text with
      | some stamp => simp [line, hs, hl, ht]
      | none =>
        have ho : format.opens p.text = true := by simpa [hs, hl, ht] using h
        simp [line, hs, hl, ht, ho]

/-- A line that does not end it continues it. -/
theorem line_of_not_breaks (h : p.breaks format = false) :
    p.line format =
      ({ p.addLine p.text with fragment := [], longLine := false, lineStart := p.offset }, []) := by
  simp only [breaks, Bool.or_eq_false_iff, isSome_eq_false_iff, isNone_iff_eq_none] at h
  obtain ⟨⟨⟨hs, hl⟩, ht⟩, ho⟩ := h
  simp [line, hs, hl, ht, ho, addLine]

theorem addLine_start (p : RecordParser) (text : Bytes) :
    ∃ r, (p.addLine text).record = some r ∧ r.start = p.origin := by
  refine ⟨_, rfl, ?_⟩
  cases hr : p.record <;> simp only [hr, getD_none, getD_some, origin] <;> split_ifs <;> rfl

/-- A short line without a record before it becomes the first one of a record. -/
theorem line_cleared_short (hl : p.longLine = false) :
    ∃ q : RecordParser, (q.record = none ∨ ∃ stamp, q.record = some ⟨p.lineStart, 0, stamp, [], false⟩) ∧
      q.lineStart = p.lineStart ∧ (p.cleared.line format).1.record = (q.addLine p.text).record ∧
      (p.cleared.line format).2 = [] := by
  cases ht : format.parseTime p.text with
  | some stamp =>
    refine ⟨{ p.cleared with record := some ⟨p.lineStart, 0, stamp, [], false⟩ }, .inr ⟨stamp, rfl⟩, rfl, ?_⟩
    simp [line, hl, ht]
  | none => exact ⟨p.cleared, .inl rfl, rfl, by simp [line, hl, ht]⟩

/-- A line without a record before it: what is emitted and where the new record starts. -/
theorem line_cleared (p : RecordParser) :
    (p.longLine = true ∧ (p.cleared.line format).2 = [⟨p.lineStart, p.offset, Time.zero, [], true⟩] ∧
      (p.cleared.line format).1 = start p.offset) ∨
    (p.longLine = false ∧ (p.cleared.line format).2 = [] ∧
      ∃ r, (p.cleared.line format).1.record = some r ∧ r.start = p.lineStart) := by
  cases hl : p.longLine with
  | true =>
    left
    simp [line, hl, cleared, finished, start]
  | false =>
    right
    obtain ⟨q, hempty, hstart, hrecord, hout⟩ := line_cleared_short format hl
    obtain ⟨r, hr, horigin⟩ := addLine_start q p.text
    refine ⟨rfl, hout, r, hrecord.trans hr, horigin.trans ?_⟩
    rcases hempty with hnone | ⟨stamp, hsome⟩
    · simp [origin, hnone, hstart]
    · simp [origin, hsome]

/-- After a line the parser stands at the start of the next one. -/
theorem line_fields (p : RecordParser) :
    (p.line format).1.offset = p.offset ∧ (p.line format).1.lineStart = p.offset ∧
      (p.line format).1.fragment = [] ∧ (p.line format).1.longLine = false := by
  simp only [line]
  split_ifs <;> (try split) <;> simp_all [addLine, cleared]

@[simp] theorem take_record (p : RecordParser) (part : Bytes) : (p.take part).record = p.record := by
  simp only [take]; split_ifs <;> rfl
@[simp] theorem take_recordBytes (p : RecordParser) (part : Bytes) : (p.take part).recordBytes = p.recordBytes := by
  simp only [take]; split_ifs <;> rfl
@[simp] theorem take_lineStart (p : RecordParser) (part : Bytes) : (p.take part).lineStart = p.lineStart := by
  simp only [take]; split_ifs <;> rfl
@[simp] theorem take_offset (p : RecordParser) (part : Bytes) : (p.take part).offset = p.offset + part.length := by
  simp only [take]; split_ifs <;> rfl
@[simp] theorem take_origin (p : RecordParser) (part : Bytes) : (p.take part).origin = p.origin := by
  simp [origin]
@[simp] theorem take_finished (p : RecordParser) (part : Bytes) (stop : Nat) :
    (p.take part).finished stop = p.finished stop := by
  simp [finished]
theorem take_cleared (p : RecordParser) (part : Bytes) : (p.take part).cleared = p.cleared.take part := by
  simp only [take]; split_ifs <;> (simp_all [cleared]; try omega)

theorem origin_of_record {r : LogRecord} (h : p.record = some r) : p.origin = r.start := by
  simp [origin, h]

/-- The records lie end to end. -/
abbrev Lie (a : Nat) (rs : List LogRecord) (b : Nat) : Prop := Tiles LogRecord.start LogRecord.stop a rs b

section Wf
variable {p : RecordParser}

theorem Wf.origin_le (h : p.Wf) : p.origin ≤ p.lineStart := by
  cases hr : p.record with
  | none => simp [origin, hr]
  | some r =>
    rw [origin_of_record hr]
    exact Nat.le_of_lt (h.opened r hr)

theorem Wf.finished (h : p.Wf) {stop : Nat} (hle : p.lineStart ≤ stop) (heq : p.record = none → p.lineStart = stop) :
    Lie p.origin (p.finished stop) stop := by
  cases hr : p.record with
  | none =>
    simp only [origin, RecordParser.finished, hr]
    exact heq hr
  | some r =>
    have := h.opened r hr
    simp only [RecordParser.finished, hr, origin_of_record hr]
    refine .single rfl ?_ rfl
    show r.start < stop
    omega

theorem Wf.take (h : p.Wf) (part : Bytes) (hne : part ≠ []) : (p.take part).Wf ∧ p.lineStart < (p.take part).offset := by
  have hpos := length_pos_iff.mpr hne
  have hlt : p.lineStart < (p.take part).offset := by
    have := h.behind
    rw [take_offset]
    omega
  refine ⟨⟨?_, ?_, ?_, ?_, fun _ => by simpa using hlt⟩, hlt⟩
  · simpa using Nat.le_of_lt hlt
  · simpa using h.opened
  · simpa using h.idle
  · intro hf hl
    simp only [RecordParser.take] at hf hl
    split_ifs at hf hl <;> simp_all

/-- What a line emits lies between the record it found open and the one it leaves open. -/
theorem Wf.line (h : p.Wf) (hlt : p.lineStart < p.offset) :
    (p.line format).1.Wf ∧ Lie p.origin (p.line format).2 (p.line format).1.origin := by
  obtain ⟨hoff, hls, hfrag, hlong⟩ := line_fields format p
  have hwf : ∀ q : RecordParser, q = (p.line format).1 → (∀ r, q.record = some r → r.start < p.offset) →
      (q.record = none → q.recordBytes = 0) → q.Wf := by
    intro q hq hr hi
    subst hq
    exact ⟨by omega, by rw [hls]; exact hr, hi, fun _ _ => by omega, by simp [hfrag, hlong]⟩
  cases hb : p.breaks format with
  | false =>
    have hline := line_of_not_breaks format hb
    obtain ⟨r, hr, hstart⟩ := addLine_start p p.text
    have hrec : (p.line format).1.record = some r := by rw [hline]; exact hr
    have horigin := h.origin_le
    refine ⟨hwf _ rfl ?_ ?_, ?_⟩
    · intro r' hr'
      rw [hrec] at hr'
      cases hr'
      omega
    · simp [hrec]
    · rw [origin_of_record hrec, hstart, hline]
      exact .nil
  | true =>
    have hline := line_of_breaks format hb
    have hbefore : Lie p.origin (p.finished p.lineStart) p.lineStart := h.finished (Nat.le_refl _) fun _ => rfl
    rcases line_cleared format p with ⟨-, hout, hstate⟩ | ⟨-, hout, r, hr, hstart⟩
    · have hq : (p.line format).1 = RecordParser.start p.offset := by rw [hline]; exact hstate
      refine ⟨hq ▸ .start _, ?_⟩
      rw [hq, hline, hout]
      exact hbefore.append (.single rfl hlt rfl)
    · have hrec : (p.line format).1.record = some r := by rw [hline]; exact hr
      refine ⟨hwf _ rfl ?_ ?_, ?_⟩
      · intro r' hr'
        rw [hrec] at hr'
        cases hr'
        omega
      · simp [hrec]
      · rw [origin_of_record hrec, hstart, hline, hout, append_nil]
        exact hbefore

theorem Wf.next (h : p.Wf) (b : UInt8) :
    (p.next format b).Wf ∧ Lie p.origin (p.out format b) (p.next format b).origin := by
  obtain ⟨htake, hlt⟩ := h.take [b] (by simp)
  by_cases hb : b = newline
  · have := htake.line format (by simpa using hlt)
    simpa [RecordParser.next, out, hb] using this
  · simp only [RecordParser.next, out, hb, if_false, take_origin]
    exact ⟨htake, .nil⟩

theorem Wf.run (h : p.Wf) (data : Bytes) :
    (p.run format data).Wf ∧ Lie p.origin (p.emitted format data) (p.run format data).origin := by
  induction data generalizing p with
  | nil => exact ⟨h, .nil⟩
  | cons b bs ih =>
    obtain ⟨hnext, hout⟩ := h.next format b
    obtain ⟨hrun, hrest⟩ := ih hnext
    exact ⟨hrun, hout.append hrest⟩

theorem Wf.close (h : p.Wf) : Lie p.origin (p.close format) p.offset := by
  simp only [RecordParser.close]
  split
  next hpart =>
    obtain ⟨hwf, hout⟩ := h.line format (h.partway hpart)
    obtain ⟨hoff, hls, -, -⟩ := line_fields format p
    rw [hoff]
    exact hout.append (hwf.finished (by omega) fun _ => hls)
  next hpart =>
    simp only [not_or, not_not, Bool.not_eq_true] at hpart
    exact h.finished h.behind fun _ => h.whole hpart.1 hpart.2

end Wf

theorem run_offset (p : RecordParser) (data : Bytes) : (p.run format data).offset = p.offset + data.length := by
  induction data generalizing p with
  | nil => rfl
  | cons b bs ih =>
    have hnext : (p.next format b).offset = p.offset + 1 := by
      by_cases hb : b = newline <;> simp [next, hb, (line_fields format _).1]
    rw [run, ih, hnext, length_cons]
    omega

end RecordParser

open RecordParser

/-- The records of a range that is read in one go. -/
def parse (format : LineFormat) (pos : Nat) (data : Bytes) : List LogRecord := (start pos).rest format data

theorem parse_tiles (format : LineFormat) (pos : Nat) (data : Bytes) :
    Lie pos (parse format pos data) (pos + data.length) := by
  obtain ⟨hwf, hout⟩ := (Wf.start pos).run format data
  have hclose := hwf.close format
  rw [run_offset] at hclose
  exact hout.append hclose

end ControlTower.Logs
