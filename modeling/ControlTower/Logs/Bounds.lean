import ControlTower.Logs.Query

/-! Sessions and the sizes they froze.

Any number of sessions take turns while the files grow. As long as the index that a
session meets fits its snapshot, its ranges stay within the snapshot and every turn
asks for a number of bytes that is not negative. -/
namespace ControlTower.Logs
open Go Data List Option RecordParser IndexBuild

theorem emitAll_eq (setup : Setup) (name : String) (s : SearchSession) (rs : List LogRecord) :
    emitAll setup name s rs =
      { s with
        build := s.build.map fun b => b.observeAll rs
        skipped := s.skipped || rs.any LogRecord.unreadable
        pending := s.pending ++ rs.flatMap (found setup s.source s.query name) } := by
  induction rs generalizing s with
  | nil =>
    have hbuild : s.build = s.build.map fun b => b.observeAll [] := by
      cases s.build <;> rfl
    simp only [emitAll, foldl_nil, any_nil, Bool.or_false, flatMap_nil, append_nil, ← hbuild]
  | cons r rs ih =>
    show emitAll setup name (emit setup name s r) rs = _
    rw [ih]
    have hbuild : (s.build.map fun b => b.observe r).map (fun b => b.observeAll rs) =
        s.build.map fun b => b.observeAll (r :: rs) := by
      cases s.build <;> rfl
    simp only [emit, hbuild, any_cons, Bool.or_assoc, flatMap_cons, append_assoc]

/-- Bytes that do not end the range. -/
theorem afterRead_more (setup : Setup) {s : SearchSession} (name : String) {span : TimeBlock}
    {data : Bytes}
    (h : s.position span + data.length ≠ span.stop) :
    afterRead setup s name span data =
      { emitAll setup name s ((s.parser.getD (.start span.start)).emitted
        (s.format setup) data) with
        readPos := s.position span + data.length
        parser := some ((s.parser.getD (.start span.start)).run (s.format setup) data) } := by
  simp [afterRead, emitAll_eq, feed_eq, h]

/-- Bytes that end the range. -/
theorem afterRead_last (setup : Setup) {s : SearchSession} (name : String) {span : TimeBlock}
    {data : Bytes}
    (h : s.position span + data.length = span.stop) :
    afterRead setup s name span data =
      { emitAll setup name s ((s.parser.getD (.start span.start)).rest (s.format setup) data) with
        readPos := span.stop
        parser := none
        rangePos := s.rangePos + 1 } := by
  simp [afterRead, emitAll_eq, feed_eq, h]

/-- Reading changes neither the files of a session nor the ranges it reads. -/
theorem afterRead_fields (setup : Setup) (s : SearchSession) (name : String) (span : TimeBlock)
    (data : Bytes) :
    (afterRead setup s name span data).ranges = s.ranges ∧
      (afterRead setup s name span data).files = s.files ∧
      (afterRead setup s name span data).filePos = s.filePos ∧
        (afterRead setup s name span data).indexKey = s.indexKey := by
  simp [afterRead, emitAll_eq]

/-! ### Many sessions -/

structure World where
  files : Files
  indexes : List FileTimeIndex
  sessions : List SearchSession
  panicked : Bool

/-- The turns of a page and the deliveries between them are separate events, so that
files may grow and other sessions may go on at any time. -/
inductive Event
  | openSession (source : Source) (query : Query) (names : List String) (walkCut : Bool)
  | turn (session room : Nat)
  | deliver (session : Nat) (limits : Limits) (page : Page)
  | close (session : Nat)
  | grow (dir name : String) (data : Bytes) (modTime : Time)

namespace World
variable (setup : Setup) (w : World)

def openSession (source : Source) (query : Query) (names : List String) (walkCut : Bool) : World :=
  match names.mapM fun name => (w.files source.hostDir name).bind fun f =>
    snapshotOf setup f name with
  | none => w
  | some files => { w with sessions := w.sessions ++ [.fresh source query files walkCut] }

def takeTurn (i room : Nat) : World :=
  match w.sessions[i]? with
  | none => w
  | some s =>
    match turn setup w.files w.indexes s room with
    | .panicked => { w with panicked := true }
    | .failed _ => w
    | .moved indexes s _ => { w with indexes := indexes, sessions := w.sessions.set i s }

def step : Event → World
  | .openSession source query names walkCut => w.openSession setup source query names walkCut
  | .turn i room => w.takeTurn setup i room
  | .deliver i limits page =>
    match w.sessions[i]? with
    | none => w
    | some s => { w with sessions := w.sessions.set i (Logs.deliver limits page s).2.1 }
  | .close i => { w with sessions := w.sessions.eraseIdx i }
  | .grow dir name data modTime =>
    { w with files := fun d n =>
        if d = dir ∧ n = name then (w.files d n).map fun f =>
          { f with content := f.content ++ data, modTime := modTime }
        else w.files d n }

def run (w : World) : List Event → World
  | [] => w
  | e :: es => run (w.step setup e) es

theorem run_append (es fs : List Event) :
    w.run setup (es ++ fs) = (w.run setup es).run setup fs := by
  induction es generalizing w with
  | nil => rfl
  | cons e es ih => exact ih _

/-- The engine before its first query. -/
def init (files : Files) : World := ⟨files, [], [], false⟩

/-- The index that the next turn of a session is about to use, for a file whose ranges
are not set yet, and the size that the session froze. -/
def about (s : SearchSession) : Option (FileTimeIndex × Nat) := do
  let snap ← s.files[s.filePos]?
  let f ← w.files s.source.hostDir snap.name
  if snapshotMatches setup.digest f snap ∧ s.indexKey = none then
    let c ← (cachedIndex setup.digest w.indexes (Logs.indexKey setup s snap) f).1
    return (c, snap.size)
  else none

/-- The index fits the snapshot of the session that is about to use it. -/
def Fitting : Event → Prop
  | .turn i _ =>
    ∀ s c size, w.sessions[i]? = some s → w.about setup s = some (c, size) → Fits size c
  | _ => True

/-- Every turn of the run meets an index that fits. -/
def FittingRun (w : World) : List Event → Prop
  | [] => True
  | e :: es => w.Fitting setup e ∧ FittingRun (w.step setup e) es

end World

/-! ### What holds of a session -/

/-- The session reads within its ranges. A build has the last range ahead of it or within
it, and its blocks reach up to the record that is open there. -/
structure Reading (s : SearchSession) (size : Nat) : Prop where
  within : Within size s.ranges
  parser : ∀ p, s.parser = some p → ∃ span, s.ranges[s.rangePos]? = some span ∧ p.Wf ∧
    p.offset = s.readPos ∧
    span.start ≤ p.origin ∧ s.readPos ≤ span.stop
  build : ∀ b, s.build = some b → ∃ others, s.ranges = others ++ [.range b.next size] ∧
    s.rangePos ≤ others.length ∧
    (∀ r ∈ others, r.stop ≤ b.next) ∧
    (b.disabled = false → BlocksLie 0 b.blocks
      (if s.rangePos = others.length then s.parser.elim b.next RecordParser.origin else b.next))

/-- Either the ranges of the current file are not set yet, or they are read. -/
structure Sane (s : SearchSession) : Prop where
  idle : s.indexKey = none → s.parser = none ∧ s.rangePos = 0
  reading : ∀ snap, s.files[s.filePos]? = some snap → s.indexKey.isSome → Reading s snap.size

/-- The turn did not panic, and what it leaves behind satisfies `P`. -/
def Turn.Leaves (P : List FileTimeIndex → SearchSession → Prop) : Turn → Prop
  | .panicked => False
  | .failed _ => True
  | .moved indexes s _ => P indexes s

section Turn
variable {setup : Setup} {s : SearchSession} {size : Nat}

/-- Ranges that were just set. -/
theorem Reading.prepared {cached : Option FileTimeIndex} {q : Interval}
    (hc : ∀ c, cached = some c → c.Lies)
    (hfits : ∀ c, cached = some c → Fits size c) (hranges : s.ranges = (prepared q size cached).1)
    (hbuild : s.build = (prepared q size cached).2) (hpos : s.rangePos = 0)
    (hparser : s.parser = none) : Reading s size where
  within := by
    rw [hranges]
    exact (prepared_within q size hc).mpr hfits
  parser p hp := by simp [hparser] at hp
  build b hb := by
    rw [hbuild] at hb
    simp only [hranges, hpos, hparser, elim_none, ite_self]
    cases cached with
    | none =>
      cases hb
      exact ⟨[], rfl, Nat.le_refl _, by simp, fun _ => .nil⟩
    | some c =>
      have hkept := (hc c rfl).kept
      simp only [Logs.prepared] at hb ⊢
      split at hb
      next => cases hb
      next hsize =>
        cases hb
        rw [if_neg hsize]
        refine ⟨_, rfl, Nat.zero_le _, fun r hr => ?_, fun _ => hkept⟩
        exact (hkept.bounds (mem_of_mem_filter hr)).2.2

/-- A turn reads from within its range. -/
structure Asks (s : SearchSession) (span : TimeBlock) : Prop where
  wf : (s.parser.getD (.start span.start)).Wf
  offset : (s.parser.getD (.start span.start)).offset = s.position span
  origin : span.start ≤ (s.parser.getD (.start span.start)).origin
  inside : s.position span ≤ span.stop

variable {span : TimeBlock}

theorem Reading.asks (h : Reading s size) (hspan : s.ranges[s.rangePos]? = some span) :
    Asks s span := by
  cases hp : s.parser with
  | none =>
    have hin := h.within.inside span (mem_of_getElem? hspan)
    constructor <;> simp only [hp, getD_none, SearchSession.position, isNone_none, if_true]
    · exact .start span.start
    · rfl
    · exact Nat.le_refl _
    · exact hin.1
  | some p =>
    obtain ⟨span', hspan', hwf, hoff, horigin, hle⟩ := h.parser p hp
    rw [hspan] at hspan'
    cases hspan'
    constructor <;> simp only [hp, getD_some, SearchSession.position, isNone_some,
      Bool.false_eq_true, if_false]
    · exact hwf
    · exact hoff
    · exact horigin
    · exact hle

variable {data : Bytes}

/-- What is emitted for the bytes that end the range reaches up to its end. -/
theorem Asks.rest (h : Asks s span) (format : LineFormat)
    (hfinal : s.position span + data.length = span.stop) :
    RecordParser.Lie (s.parser.getD (.start span.start)).origin
      ((s.parser.getD (.start span.start)).rest format data) span.stop := by
  obtain ⟨hwf, hout⟩ := h.wf.run format data
  have hclose := hwf.close format
  rw [run_offset, h.offset, hfinal] at hclose
  exact hout.append hclose

theorem Asks.run_offset (h : Asks s span) (format : LineFormat) (data : Bytes) :
    ((s.parser.getD (.start span.start)).run format data).offset = s.position span +
      data.length := by
  rw [RecordParser.run_offset, h.offset]

/-- A build after the records of a turn. -/
theorem Reading.observed (h : Reading s size) (hspan : s.ranges[s.rangePos]? = some span)
    {b : IndexBuild}
    (hb : s.build = some b) {rs : List LogRecord} {k : Nat}
    (hrs : RecordParser.Lie (s.parser.getD (.start span.start)).origin rs k) (hk : k ≤ span.stop) :
    ∃ others, s.ranges = others ++ [.range b.next size] ∧ (∀ r ∈ others, r.stop ≤ b.next) ∧
      ((s.rangePos = others.length ∧
        ((b.observeAll rs).disabled = false → BlocksLie 0 (b.observeAll rs).blocks k)) ∨
        (s.rangePos < others.length ∧
          ((b.observeAll rs).disabled = false → BlocksLie 0 (b.observeAll rs).blocks b.next))) := by
  obtain ⟨others, hranges, hpos, hothers, hlie⟩ := h.build b hb
  refine ⟨others, hranges, hothers, ?_⟩
  have hasks := h.asks hspan
  rcases Nat.lt_or_eq_of_le hpos with hlt | heq
  · -- A range of the cached blocks: its records are not new.
    right
    rw [if_neg (by omega)] at hlie
    have hmem : span ∈ others := by
      rw [hranges, List.getElem?_append_left hlt] at hspan
      exact mem_of_getElem? hspan
    have hsame : b.observeAll rs = b := by
      apply observeAll_of_lt
      intro r hr
      have := hrs.bounds hr
      have := hothers span hmem
      omega
    rw [hsame]
    exact ⟨hlt, hlie⟩
  · left
    rw [if_pos heq] at hlie
    have hlast : span = .range b.next size := by
      rw [hranges, heq, List.getElem?_concat_length] at hspan
      exact (Option.some.inj hspan).symm
    have hmark : s.parser.elim b.next RecordParser.origin =
        (s.parser.getD (.start span.start)).origin := by
      cases s.parser with
      | none => simp [hlast, RecordParser.start, RecordParser.origin, TimeBlock.range]
      | some p => rfl
    rw [hmark] at hlie
    have hnext : b.next ≤ (s.parser.getD (.start span.start)).origin := by
      have := hasks.origin
      rw [hlast] at this ⊢
      exact this
    exact ⟨heq, observeAll_lie hlie hnext hrs⟩

/-- A turn that does not end the last range goes on reading. -/
theorem Reading.afterRead (h : Reading s size) (hspan : s.ranges[s.rangePos]? = some span)
    (name : String) (hdata : s.position span + data.length ≤ span.stop)
    (hmore : (afterRead setup s name span data).rangePos ≠ s.ranges.length) :
    Reading (afterRead setup s name span data) size := by
  have hasks := h.asks hspan
  obtain ⟨hwf, hout⟩ := hasks.wf.run (s.format setup) data
  by_cases hfinal : s.position span + data.length = span.stop
  · rw [afterRead_last setup name hfinal, emitAll_eq] at hmore ⊢
    have hlie := hasks.rest (s.format setup) hfinal
    constructor
    case within => exact h.within
    case parser => exact nofun
    case build =>
      intro b' hb'
      obtain ⟨b, hb, rfl⟩ := map_eq_some_iff.mp hb'
      obtain ⟨others, hranges, hothers, hcase⟩ := h.observed hspan hb hlie (Nat.le_refl _)
      rcases hcase with ⟨hpos, -⟩ | ⟨hpos, hblocks⟩
      · exact absurd (by simp [hranges, hpos]) hmore
      · refine ⟨others, by simpa using hranges, hpos, by simpa using hothers, ?_⟩
        simpa using hblocks
  · rw [afterRead_more setup name hfinal, emitAll_eq]
    constructor
    case within => exact h.within
    case parser =>
      intro p hp
      cases hp
      exact ⟨span, hspan, hwf, hasks.run_offset (s.format setup) data, hasks.origin.trans hout.le,
        hdata⟩
    case build =>
      intro b' hb'
      obtain ⟨b, hb, rfl⟩ := map_eq_some_iff.mp hb'
      have hle : ((s.parser.getD (.start span.start)).run (s.format setup) data).origin ≤
          span.stop := by
        have := hwf.origin_le
        have := hwf.behind
        have := hasks.run_offset (s.format setup) data
        omega
      obtain ⟨others, hranges, hothers, hcase⟩ := h.observed hspan hb hout hle
      rcases hcase with ⟨hpos, hblocks⟩ | ⟨hpos, hblocks⟩
      · refine ⟨others, by simpa using hranges, Nat.le_of_eq hpos, by simpa using hothers, ?_⟩
        simpa [hpos] using hblocks
      · refine ⟨others, by simpa using hranges, Nat.le_of_lt hpos, by simpa using hothers, ?_⟩
        simpa [Nat.ne_of_lt hpos] using hblocks

/-- A turn that ends the last range has an index of the whole snapshot. -/
theorem Reading.finished (h : Reading s size) (hspan : s.ranges[s.rangePos]? = some span)
    (name : String) (hend : (Logs.afterRead setup s name span data).rangePos = s.ranges.length)
    {b : IndexBuild}
    (hb : (Logs.afterRead setup s name span data).build = some b) (henabled : b.disabled = false) :
      BlocksLie 0 b.blocks size := by
  have hlt := (List.getElem?_eq_some_iff.mp hspan).1
  by_cases hfinal : s.position span + data.length = span.stop
  · rw [afterRead_last setup name hfinal, emitAll_eq] at hend hb
    obtain ⟨b₀, hb₀, rfl⟩ := map_eq_some_iff.mp hb
    have hlie := (h.asks hspan).rest (s.format setup) hfinal
    obtain ⟨others, hranges, -, hcase⟩ := h.observed hspan hb₀ hlie (Nat.le_refl _)
    rcases hcase with ⟨hpos, hblocks⟩ | ⟨hpos, -⟩
    · have hlast : span = .range b₀.next size := by
        rw [hranges, hpos, List.getElem?_concat_length] at hspan
        exact (Option.some.inj hspan).symm
      have hstop : span.stop = size := by rw [hlast]; rfl
      rw [← hstop]
      exact hblocks henabled
    · rw [hranges, length_append, length_singleton] at hend
      exact absurd hend (by simp only; omega)
  · rw [afterRead_more setup name hfinal, emitAll_eq] at hend
    exact absurd hend (Nat.ne_of_lt hlt)

theorem Sane.fresh (source : Source) (query : Query) (files : List FileSnapshot) (walkCut : Bool) :
    Sane (.fresh source query files walkCut) := ⟨fun _ => ⟨rfl, rfl⟩, nofun⟩

theorem Sane.nextFile (s : SearchSession) : Sane s.nextFile := ⟨fun _ => ⟨rfl, rfl⟩, nofun⟩

theorem readCount_nonneg {pos : Nat} (h : pos ≤ span.stop) (room : Nat) :
    0 ≤ readCount span pos room := by
  simp only [readCount]
  omega

theorem readCount_le (span : TimeBlock) (pos room : Nat) :
    (pos : Int) + readCount span pos room ≤ span.stop := by
  simp only [readCount]
  omega

variable {indexes : List FileTimeIndex} {snap : FileSnapshot} {key : IndexKey} {f : File}
  {room : Nat}

/-- A turn with the ranges set. -/
theorem Reading.readOn (h : Reading s snap.size) (hidx : ∀ c ∈ indexes, c.Lies)
    (hsnap : s.files[s.filePos]? = some snap)
    (hkey : s.indexKey.isSome) :
    (readOn setup indexes s key snap f room).Leaves fun indexes s => (∀ c ∈ indexes, c.Lies) ∧
      Sane s := by
  cases hspan : s.ranges[s.rangePos]? with
  | none =>
    have hbuild : s.build = none := by
      cases hb : s.build with
      | none => rfl
      | some b =>
        obtain ⟨others, hranges, hpos, -⟩ := h.build b hb
        rw [List.getElem?_eq_none_iff, hranges, length_append, length_singleton] at hspan
        omega
    simp only [Logs.readOn, hspan, finishFile, hbuild]
    exact ⟨hidx, .nextFile s⟩
  | some span =>
    have hin := (h.asks hspan).inside
    have hcount := readCount_nonneg hin room
    have hdata : s.position span + ((f.content.drop (s.position span)).take
        (readCount span (s.position span) room).toNat).length ≤ span.stop := by
      have := readCount_le span (s.position span) room
      rw [length_take]
      omega
    simp only [Logs.readOn, hspan, readRange, if_neg (Int.not_lt.mpr hcount)]
    obtain hfields := afterRead_fields setup s snap.name span
    generalize (f.content.drop (s.position span)).take
      (readCount span (s.position span) room).toNat = data at hdata
    split
    next => exact True.intro
    next =>
      split
      next hend =>
        refine ⟨fun c hc => ?_, .nextFile _⟩
        rcases mem_finishedIndex hc with hc | ⟨b, hb, henabled, rfl⟩
        · exact hidx c hc
        · exact ⟨snap.size, Nat.le_refl _,
            h.finished hspan snap.name (hend.trans (by rw [(hfields data).1])) hb henabled⟩
      next hend =>
        obtain ⟨hranges, hfiles, hpos, hkept⟩ := hfields data
        have hread := h.afterRead hspan snap.name hdata (by rwa [hranges] at hend)
        refine ⟨hidx, ⟨?_, ?_⟩⟩
        · intro hnone
          simp [hkept ▸ hnone] at hkey
        · intro snap' hsnap' _
          rw [hfiles, hpos, hsnap] at hsnap'
          cases hsnap'
          exact hread

/-- What a session meets when it sets its ranges. -/
theorem about_eq {w : World} (hsnap : s.files[s.filePos]? = some snap)
    (hf : w.files s.source.hostDir snap.name = some f)
    (hmatch : snapshotMatches setup.digest f snap = true) (hkey : s.indexKey = none) :
    w.about setup s = (cachedIndex setup.digest w.indexes (indexKey setup s snap) f).1.map fun c =>
      (c, snap.size) := by
  simp only [World.about, hsnap, hf, hmatch, hkey, bind_eq_bind, bind_some, and_self, if_true]
  cases (cachedIndex setup.digest w.indexes (indexKey setup s snap) f).1 <;> rfl

theorem Sane.turn {w : World} (h : Sane s) (room : Nat) (hidx : ∀ c ∈ w.indexes, c.Lies)
    (hfits : ∀ c size, w.about setup s = some (c, size) → Fits size c) :
    (turn setup w.files w.indexes s room).Leaves fun indexes s =>
      (∀ c ∈ indexes, c.Lies) ∧ Sane s := by
  simp only [Logs.turn]
  split
  next => exact True.intro
  next snap hsnap =>
    split
    next => exact True.intro
    next f hf =>
      split
      next hmatch =>
        split
        next key hkey =>
          exact (h.reading snap hsnap (by simp [hkey])).readOn hidx hsnap (by simp [hkey])
        next hkey =>
          obtain ⟨hparser, hpos⟩ := h.idle hkey
          have hcached := cachedIndex_spec setup.digest (indexKey setup s snap) w.indexes f
          have hready : Reading (prepareTimeIndex setup w.indexes s snap f).2 snap.size := by
            refine Reading.prepared (fun c hc => hidx c (hcached.1 c hc).1)
              (fun c hc => ?_) rfl rfl hpos hparser
            apply hfits c
            rw [about_eq hsnap hf hmatch hkey, hc]
            rfl
          exact hready.readOn (fun c hc => hidx c (hcached.2 c hc)) hsnap rfl
      next => exact True.intro

end Turn

/-! ### Whole runs -/

structure World.Good (w : World) : Prop where
  running : w.panicked = false
  indexes : ∀ c ∈ w.indexes, c.Lies
  sessions : ∀ s ∈ w.sessions, Sane s

theorem World.Good.init (files : Files) : (World.init files).Good :=
  ⟨rfl, by simp [World.init], by simp [World.init]⟩

theorem World.Good.step {setup : Setup} {w : World} {e : Event} (h : w.Good)
    (hfit : w.Fitting setup e) :
    (w.step setup e).Good := by
  have hset : ∀ (i : Nat) (s : SearchSession), Sane s → ∀ s' ∈ w.sessions.set i s, Sane s' := by
    intro i s hs s' hs'
    rcases mem_or_eq_of_mem_set hs' with hm | rfl
    · exact h.sessions s' hm
    · exact hs
  cases e with
  | openSession source query names walkCut =>
    simp only [World.step, World.openSession]
    split
    next => exact h
    next files _ =>
      refine ⟨h.running, h.indexes, fun s hs => ?_⟩
      rcases mem_append.mp hs with hs | hs
      · exact h.sessions s hs
      · rw [mem_singleton.mp hs]
        exact .fresh ..
  | turn i room =>
    simp only [World.step, World.takeTurn]
    split
    next => exact h
    next s hs =>
      have hturn := (h.sessions s (mem_of_getElem? hs)).turn room h.indexes fun c size hc =>
        hfit s c size hs hc
      cases heq : Logs.turn setup w.files w.indexes s room with
      | panicked =>
        rw [heq] at hturn
        exact hturn.elim
      | failed error => exact h
      | moved indexes' s' n =>
        rw [heq] at hturn
        exact ⟨h.running, hturn.1, hset i s' hturn.2⟩
  | deliver i limits page =>
    simp only [World.step]
    split
    next => exact h
    next s hs =>
      have hs := h.sessions s (mem_of_getElem? hs)
      exact ⟨h.running, h.indexes, hset i _ ⟨hs.idle, fun snap hsnap hkey =>
        let hr := hs.reading snap hsnap hkey
        ⟨hr.within, hr.parser, hr.build⟩⟩⟩
  | close i => exact ⟨h.running, h.indexes, fun s hs => h.sessions s (mem_of_mem_eraseIdx hs)⟩
  | grow dir name data modTime => exact ⟨h.running, h.indexes, h.sessions⟩

theorem World.Good.run {setup : Setup} {w : World} {es : List Event} (h : w.Good)
    (hfit : w.FittingRun setup es) :
    (w.run setup es).Good := by
  induction es generalizing w with
  | nil => exact h
  | cons e es ih => exact ih (h.step hfit.1) hfit.2

/-- No session of the world reads outside the sizes that it froze. -/
structure World.Bounded (setup : Setup) (w : World) : Prop where
  running : w.panicked = false
  within : ∀ s ∈ w.sessions, ∀ snap, s.files[s.filePos]? = some snap → s.indexKey.isSome →
    Within snap.size s.ranges
  read : ∀ s ∈ w.sessions, ∀ snap, s.files[s.filePos]? = some snap → s.indexKey.isSome →
    ∀ span, s.ranges[s.rangePos]? = some span → ∀ room,
      0 ≤ readCount span (s.position span) room ∧
        s.position span + readCount span (s.position span) room ≤ snap.size
  /-- A session that sets its ranges stays within its snapshot exactly when its index fits. -/
  fits : ∀ s ∈ w.sessions, ∀ snap f, s.files[s.filePos]? = some snap →
    w.files s.source.hostDir snap.name = some f →
    snapshotMatches setup.digest f snap = true → s.indexKey = none →
      (Within snap.size (prepareTimeIndex setup w.indexes s snap f).2.ranges ↔
        ∀ c size, w.about setup s = some (c, size) → Fits size c)

theorem searches_within_snapshots (setup : Setup) (files : Files) (es : List Event)
    (hfit : (World.init files).FittingRun setup es) :
      ((World.init files).run setup es).Bounded setup := by
  have h : ((World.init files).run setup es).Good := (World.Good.init files).run hfit
  generalize (World.init files).run setup es = w at h
  constructor
  case running => exact h.running
  case within => exact fun s hs snap hsnap hkey =>
    ((h.sessions s hs).reading snap hsnap hkey).within
  case read =>
    intro s hs snap hsnap hkey span hspan room
    have hread := (h.sessions s hs).reading snap hsnap hkey
    have hin := hread.within.inside span (mem_of_getElem? hspan)
    have hle := readCount_le span (s.position span) room
    exact ⟨readCount_nonneg (hread.asks hspan).inside room, by omega⟩
  case fits =>
    intro s hs snap f hsnap hf hmatch hkey
    have hcached := cachedIndex_spec setup.digest (indexKey setup s snap) w.indexes f
    rw [about_eq hsnap hf hmatch hkey]
    refine (prepared_within _ _ fun c hc => h.indexes c (hcached.1 c hc).1).trans ?_
    constructor
    · intro hall c size hc
      obtain ⟨c', hc', heq⟩ := map_eq_some_iff.mp hc
      cases heq
      exact hall c hc'
    · intro hall c hc
      exact hall c snap.size (by rw [hc]; rfl)

instance (setup : Setup) (w : World) (e : Event) : Decidable (w.Fitting setup e) :=
  match e with
  | .turn i _ =>
    match hs : w.sessions[i]?.bind (w.about setup) with
    | none => isTrue fun s c size h ha => by simp [h, ha] at hs
    | some (c, size) =>
      if hf : Fits size c then isTrue fun s c' size' h ha => by
        rw [h, bind_some, ha] at hs
        cases hs
        exact hf
      else isFalse fun hall => by
        obtain ⟨s, h, ha⟩ := bind_eq_some_iff.mp hs
        exact hf (hall s c size h ha)
  | .openSession .. | .deliver .. | .close .. | .grow .. => isTrue True.intro

instance fittingRunDecidable (setup : Setup) (w : World) :
    (es : List Event) → Decidable (w.FittingRun setup es)
  | [] => isTrue True.intro
  | e :: es =>
    have := fittingRunDecidable setup (w.step setup e) es
    inferInstanceAs (Decidable (_ ∧ _))

/-- Lines without a time; the hash keeps its bytes. -/
def plainSetup : Setup where
  loc := "UTC"
  digest := id
  format _ _ := ⟨fun _ => none, fun _ => false, false⟩
  matcher _ _ _ := true
  redact _ text := text

def appLogs : Source := ⟨"/logs", "", ""⟩

def firstSecond : Query := ⟨⟨0, 1000000000⟩, []⟩

def shortLine : Bytes := [97, newline]

/-- One file with one short line. -/
def oneLine : Files :=
  fun dir name => if dir = "/logs" ∧ name = "app.log" then some ⟨1, 0, shortLine⟩ else none

/-- Two sessions before and after a growth, in turns. -/
def alternating : List Event :=
  [.openSession appLogs firstSecond ["app.log"] false, .turn 0 1,
    .grow "/logs" "app.log" shortLine 1,
    .openSession appLogs firstSecond ["app.log"] false, .turn 0 1, .turn 1 65536, .turn 1 65536]

theorem searches_within_snapshots_alternating :
    (World.init oneLine).FittingRun plainSetup alternating ∧
      ((World.init oneLine).run plainSetup alternating).Bounded plainSetup :=
  have h : (World.init oneLine).FittingRun plainSetup alternating := by decide
  ⟨h, searches_within_snapshots plainSetup oneLine alternating h⟩

/-! ### A session that is overtaken -/

/-- Bytes without a newline stay in the fragment. -/
theorem RecordParser.run_part (format : LineFormat) (p : RecordParser) {bs : Bytes} (hne : bs ≠ [])
    (h : newline ∉ bs) :
    p.run format bs = p.take bs ∧ p.emitted format bs = [] := by
  induction bs generalizing p with
  | nil => exact absurd rfl hne
  | cons b bs ih =>
    have hb : b ≠ newline := fun heq => h (heq ▸ mem_cons_self)
    simp only [RecordParser.run, RecordParser.emitted, RecordParser.next, RecordParser.out,
      if_neg hb, nil_append]
    cases bs with
    | nil => exact ⟨rfl, rfl⟩
    | cons c bs =>
      obtain ⟨hrun, hout⟩ := ih (p.take [b]) (by simp) fun hm => h (mem_cons_of_mem _ hm)
      rw [hrun, take_take]
      exact ⟨rfl, hout⟩

/-- A short line, a line of `n + 1` bytes and another short line. -/
def threeLines (n : Nat) : Bytes := shortLine ++ (List.replicate n 97 ++ newline :: shortLine)

def plainFormat : LineFormat := ⟨fun _ => none, fun _ => false, false⟩

theorem parse_threeLines {n : Nat} (hn : maxRecordBytes < n) :
    parse plainFormat 0 (threeLines n) =
      [⟨0, 2, Time.zero, [⟨[97], 0⟩], false⟩, ⟨2, n + 3, Time.zero, [], true⟩,
        ⟨n + 3, n + 5, Time.zero, [⟨[97], n + 3⟩], false⟩] := by
  have hnew : newline ∉ List.replicate n 97 := by
    rw [mem_replicate]
    exact fun h => absurd h.2 (by decide)
  have hne : List.replicate n (97 : UInt8) ≠ [] := by
    rw [Ne, replicate_eq_nil_iff]
    omega
  have hfirst : (RecordParser.start 0).run plainFormat shortLine =
      ⟨2, 2, [], false, some ⟨0, 0, Time.zero, [⟨[97], 0⟩], false⟩, 2⟩ ∧
      (RecordParser.start 0).emitted plainFormat shortLine = [] := ⟨rfl, rfl⟩
  obtain ⟨hrun, hout⟩ := run_part plainFormat
    ⟨2, 2, [], false, some ⟨0, 0, Time.zero, [⟨[97], 0⟩], false⟩, 2⟩ hne hnew
  have htake : RecordParser.take
      ⟨2, 2, [], false, some ⟨0, 0, Time.zero, [⟨[97], 0⟩], false⟩, 2⟩ (List.replicate n 97) =
      ⟨2 + n, 2, [], true, some ⟨0, 0, Time.zero, [⟨[97], 0⟩], false⟩, 2⟩ := by
    simp [RecordParser.take, hn]
  rw [parse, threeLines, rest_append, hfirst.1, hfirst.2, rest_append, hrun, hout, htake]
  simp [RecordParser.rest, RecordParser.emitted, RecordParser.run, RecordParser.out,
    RecordParser.next, shortLine, newline,
    RecordParser.take, RecordParser.line, plainFormat, RecordParser.close, RecordParser.finished,
      RecordParser.cleared,
    RecordParser.addLine, RecordParser.text, trimSuffix, maxRecordBytes, maxRecordLines]
  omega

/-- A session that reads a file without an index has read the first `k` bytes. -/
structure Unindexed (setup : Setup) (s : SearchSession) (key : IndexKey) (snap : FileSnapshot)
    (f : File) (k : Nat) : Prop where
  files : s.files[s.filePos]? = some snap
  key : s.indexKey = some key
  ranges : s.ranges = [.range 0 snap.size]
  rangePos : s.rangePos = 0
  position : s.position (.range 0 snap.size) = k
  parser : s.parser.getD (.start 0) = (RecordParser.start 0).run (s.format setup) (f.content.take k)
  build : s.build = some (IndexBuild.observeAll ⟨[], 0, false⟩
    ((RecordParser.start 0).emitted (s.format setup) (f.content.take k)))

section Unindexed
variable {setup : Setup} {s : SearchSession} {key : IndexKey} {snap : FileSnapshot} {f : File}
  {k room : Nat}
  {indexes : List FileTimeIndex}

/-- A turn that does not end its range. -/
theorem readOn_more (setup : Setup) (indexes : List FileTimeIndex) (key : IndexKey)
    (snap : FileSnapshot) (f : File)
    (room : Nat) {span : TimeBlock} {n : Nat} (hspan : s.ranges[s.rangePos]? = some span)
    (hcount : readCount span (s.position span) room = n)
    (hlen : ((f.content.drop (s.position span)).take n).length = n)
    (hmore : s.position span + n ≠ span.stop) :
    Logs.readOn setup indexes s key snap f room =
      .moved indexes (afterRead setup s snap.name span ((f.content.drop (s.position span)).take n))
        n := by
  have hlt := (List.getElem?_eq_some_iff.mp hspan).1
  have hpos :
      (afterRead setup s snap.name span ((f.content.drop (s.position span)).take n)).rangePos =
        s.rangePos := by
    rw [afterRead_more setup snap.name (by rwa [hlen]), emitAll_eq]
  simp only [Logs.readOn, hspan, readRange, hcount, Int.toNat_natCast, hlen, Nat.lt_irrefl,
    if_false, hpos, (afterRead_fields ..).1,
    if_neg (Nat.ne_of_lt hlt), if_neg (Int.not_lt.mpr (Int.natCast_nonneg n))]

/-- A turn that reads 64 KiB. -/
theorem Unindexed.readOn (h : Unindexed setup s key snap f k) (indexes : List FileTimeIndex)
    (hsize : snap.size = f.content.length)
    (hk : k + 65536 ≤ snap.size) :
    ∃ n, Logs.readOn setup indexes s key snap f 65536 =
      if k + 65536 = snap.size then .moved (finishedIndex indexes key snap
        (some (IndexBuild.observeAll ⟨[], 0, false⟩ (parse (s.format setup) 0 f.content))))
        (afterRead setup s snap.name (.range 0 snap.size) ((f.content.drop k).take 65536)).nextFile
          n
      else .moved indexes (afterRead setup s snap.name (.range 0 snap.size)
        ((f.content.drop k).take 65536)) n := by
  have hcount : readCount (.range 0 snap.size) k 65536 = 65536 := by
    simp only [readCount, TimeBlock.range]
    omega
  have hlen : ((f.content.drop k).take 65536).length = 65536 := by
    rw [length_take, length_drop]
    omega
  have hspan : s.ranges[s.rangePos]? = some (.range 0 snap.size) := by simp [h.ranges, h.rangePos]
  have htext : f.content.take (k + 65536) = f.content.take k ++ (f.content.drop k).take 65536 :=
    take_add ..
  have hdata : s.position (.range 0 snap.size) + ((f.content.drop k).take 65536).length = k +
      65536 := by
    rw [h.position, hlen]
  refine ⟨65536, ?_⟩
  simp only [Logs.readOn, hspan, readRange, h.position, hcount]
  rw [if_neg (by decide), if_neg (by simp [hlen])]
  simp only [show (65536 : Int).toNat = 65536 from rfl, hlen]
  by_cases hend : k + 65536 = snap.size
  · have hall : f.content.take k ++ (f.content.drop k).take 65536 = f.content := by
      rw [← htext, hend, hsize, take_length]
    rw [afterRead_last setup snap.name (hdata.trans hend)]
    simp only [finishFile, emitAll_eq, h.ranges, h.rangePos, h.build, map_some, length_singleton,
      if_true, hend]
    rw [← observeAll_append, TimeBlock.range, h.parser, ← rest_append, hall, parse]
  · rw [afterRead_more setup snap.name (hdata.trans_ne hend)]
    simp only [emitAll_eq, h.ranges, h.rangePos, length_singleton, hend, if_false]
    rfl

theorem Unindexed.afterRead (h : Unindexed setup s key snap f k)
    (hsize : snap.size = f.content.length)
    (hk : k + 65536 < snap.size) :
    Unindexed setup (Logs.afterRead setup s snap.name (.range 0 snap.size)
      ((f.content.drop k).take 65536)) key snap f (k + 65536) := by
  have hdata : s.position (.range 0 snap.size) + ((f.content.drop k).take 65536).length = k +
      65536 := by
    rw [h.position, length_take, length_drop]
    omega
  have htext : f.content.take (k + 65536) = f.content.take k ++ (f.content.drop k).take 65536 :=
    take_add ..
  rw [afterRead_more setup snap.name (hdata.trans_ne (by simp only [TimeBlock.range]; omega)),
    emitAll_eq, hdata]
  constructor
  · exact h.files
  · exact h.key
  · exact h.ranges
  · exact h.rangePos
  · rfl
  · show (s.parser.getD (.start 0)).run (s.format setup) _ = (RecordParser.start 0).run
      (s.format setup) _
    rw [htext, run_append, h.parser]
  · show s.build.map _ =
      some (IndexBuild.observeAll _ ((RecordParser.start 0).emitted (s.format setup) _))
    rw [htext, emitted_append, observeAll_append, ← h.parser, h.build]
    rfl

theorem turn_of_key {files : Files} (hsnap : s.files[s.filePos]? = some snap)
    (hf : files s.source.hostDir snap.name = some f)
    (hmatch : snapshotMatches setup.digest f snap = true) (hkey : s.indexKey = some key) :
    turn setup files indexes s room = readOn setup indexes s key snap f room := by
  simp only [turn, hsnap, hf, hmatch, hkey, if_true]

theorem turn_of_no_key {files : Files} (hsnap : s.files[s.filePos]? = some snap)
    (hf : files s.source.hostDir snap.name = some f)
    (hmatch : snapshotMatches setup.digest f snap = true) (hkey : s.indexKey = none) :
    turn setup files indexes s room =
      readOn setup (prepareTimeIndex setup indexes s snap f).1
        (prepareTimeIndex setup indexes s snap f).2
        (indexKey setup s snap) snap f room := by
  simp only [turn, hsnap, hf, hmatch, hkey, if_true]

theorem World.step_turn {w : World} {i : Nat} {indexes : List FileTimeIndex} {s' : SearchSession}
    {n : Nat}
    (hs : w.sessions[i]? = some s)
    (ht : turn setup w.files w.indexes s room = .moved indexes s' n) :
    w.step setup (.turn i room) =
      { w with indexes := indexes, sessions := w.sessions.set i s' } := by
  simp only [World.step, World.takeTurn, hs, ht]

/-- Turns of one session until its file is read, while nothing else happens. The first of
them may set the ranges, which makes `s` of the session `s₀`. -/
theorem World.run_unindexed {w : World} {i : Nat} {s₀ : SearchSession} (n : Nat)
    (hs : w.sessions[i]? = some s₀)
    (hfirst : turn setup w.files w.indexes s₀ 65536 = readOn setup w.indexes s key snap f 65536)
    (h : Unindexed setup s key snap f k)
    (hf : w.files s.source.hostDir snap.name = some f)
    (hmatch : snapshotMatches setup.digest f snap = true)
    (hsize : snap.size = f.content.length) (hk : k + 65536 * (n + 1) = snap.size) :
    ∃ s', w.run setup (List.replicate (n + 1) (.turn i 65536)) =
      { w with
        indexes := finishedIndex w.indexes key snap
          (some (IndexBuild.observeAll ⟨[], 0, false⟩ (parse (s.format setup) 0 f.content)))
        sessions := w.sessions.set i s' } := by
  induction n generalizing w s₀ s k with
  | zero =>
    obtain ⟨read, hread⟩ := h.readOn w.indexes hsize (by omega)
    rw [if_pos (by omega)] at hread
    exact ⟨_, World.step_turn hs (hfirst.trans hread)⟩
  | succ n ih =>
    obtain ⟨read, hread⟩ := h.readOn w.indexes hsize (by omega)
    rw [if_neg (by omega)] at hread
    have hturn := hfirst.trans hread
    have hleft : k + 65536 + 65536 * (n + 1) = snap.size := by
      rw [← hk, Nat.mul_succ 65536 (n + 1), Nat.add_assoc, Nat.add_comm 65536]
    have hnext := h.afterRead hsize (by omega)
    have hi : i < w.sessions.length := (List.getElem?_eq_some_iff.mp hs).1
    have hsource :
        (Logs.afterRead setup s snap.name (.range 0 snap.size)
          ((f.content.drop k).take 65536)).source = s.source := by
      simp [Logs.afterRead, emitAll_eq]
    have hnow :
        (w.sessions.set i (Logs.afterRead setup s snap.name (.range 0 snap.size)
          ((f.content.drop k).take 65536)))[i]? =
        some (Logs.afterRead setup s snap.name (.range 0 snap.size)
          ((f.content.drop k).take 65536)) :=
      List.getElem?_set_self hi
    generalize Logs.afterRead setup s snap.name
      (.range 0 snap.size) ((f.content.drop k).take 65536) = s₁ at hturn hnext hsource hnow
    have hf₁ : w.files s₁.source.hostDir snap.name = some f := by rw [hsource]; exact hf
    obtain ⟨s', hs'⟩ := ih (k := k + 65536) (w := { w with sessions := w.sessions.set i s₁ }) hnow
      (turn_of_key hnext.files hf₁ hmatch hnext.key) hnext hf₁ hleft
    refine ⟨s', ?_⟩
    rw [replicate_succ, World.run, World.step_turn hs hturn, hs']
    simp only [SearchSession.format, hsource, set_set]

end Unindexed

/-- What the file grows by: a long line and a short one. -/
def grownLines (n : Nat) : Bytes := List.replicate n 97 ++ newline :: shortLine

theorem threeLines_length (n : Nat) : (threeLines n).length = n + 5 := by
  simp [threeLines, shortLine]

def grownFiles (n : Nat) : Files := fun dir name =>
  if dir = "/logs" ∧ name = "app.log" then some ⟨1, 1, threeLines n⟩ else none

def earlySnapshot : FileSnapshot := ⟨"app.log", 1, 2, 0, shortLine ++ shortLine⟩

def lateSnapshot (n : Nat) : FileSnapshot :=
  ⟨"app.log", 1, n + 5, 1, (threeLines n).take (min 128 (n + 5)) ++
    ((threeLines n).drop (n + 5 - 128)).take (min 128 (n + 5))⟩

theorem grow_oneLine (n : Nat) :
    ((World.init oneLine).step plainSetup (.grow "/logs" "app.log" (grownLines n) 1)).files =
      grownFiles n := by
  funext dir name
  by_cases h : dir = "/logs" ∧ name = "app.log"
  · simp [World.step, World.init, oneLine, grownFiles, h, threeLines, grownLines]
  · simp [World.step, World.init, oneLine, grownFiles, h]

theorem snapshotOf_grown (n : Nat) :
    (grownFiles n "/logs" "app.log").bind (snapshotOf plainSetup · "app.log") =
      some (lateSnapshot n) := by
  simp [grownFiles, snapshotOf, snapshotSignature, threeLines_length, lateSnapshot, plainSetup]

/-- Both sessions are open, the first one since before the growth. -/
def bothOpen (n : Nat) : World :=
  ⟨grownFiles n, [], [.fresh appLogs firstSecond [earlySnapshot] false,
    .fresh appLogs firstSecond [lateSnapshot n] false], false⟩

theorem run_bothOpen (n : Nat) : (World.init oneLine).run plainSetup
    [.openSession appLogs firstSecond ["app.log"] false, .grow "/logs" "app.log" (grownLines n) 1,
      .openSession appLogs firstSecond ["app.log"] false] = bothOpen n := by
  have h₁ :
      (World.init oneLine).step plainSetup (.openSession appLogs firstSecond ["app.log"] false) =
      { World.init oneLine with sessions := [.fresh appLogs firstSecond [earlySnapshot] false] } :=
        rfl
  have h₂ :
      ({ World.init oneLine with sessions := [.fresh appLogs firstSecond [earlySnapshot] false] } :
        World).step plainSetup
      (.grow "/logs" "app.log" (grownLines n) 1) =
      ⟨grownFiles n, [], [.fresh appLogs firstSecond [earlySnapshot] false], false⟩ := by
    rw [← grow_oneLine n]
    rfl
  simp only [World.run, h₁, h₂]
  have hopen := snapshotOf_grown n
  simp [World.step, World.openSession, appLogs, hopen, bothOpen]

theorem matches_late (n : Nat) :
    snapshotMatches plainSetup.digest ⟨1, 1, threeLines n⟩ (lateSnapshot n) = true := by
  simp [snapshotMatches, snapshotSignature, lateSnapshot, threeLines_length, plainSetup]

theorem matches_early (n : Nat) :
    snapshotMatches plainSetup.digest ⟨1, 1, threeLines n⟩ earlySnapshot = true := by
  have htake : (threeLines n).take 2 = shortLine := rfl
  simp [snapshotMatches, snapshotSignature, earlySnapshot, plainSetup, htake, threeLines_length]

def appKey : IndexKey := ⟨"/logs", "app.log", "", "", "UTC"⟩

/-- The blocks of the grown file: its last short line is a block of its own. -/
theorem blocks_threeLines {n : Nat} (hn : timeBlockBytes ≤ n) :
    IndexBuild.observeAll ⟨[], 0, false⟩ (parse plainFormat 0 (threeLines n)) =
      ⟨[⟨0, n + 3, Time.zero, Time.zero, true⟩, ⟨n + 3, n + 5, Time.zero, Time.zero, true⟩], 0,
        false⟩ := by
  have hlong : maxRecordBytes < n := Nat.lt_of_lt_of_le (by decide) hn
  have hfull : timeBlockBytes ≤ n + 3 := by omega
  rw [parse_threeLines hlong]
  simp [IndexBuild.observeAll, IndexBuild.observe, TimeBlock.absorb, TimeBlock.range, hfull,
    Time.isZero,
    show ¬ timeBlockBytes ≤ 2 by decide, show ¬ maxTimeIndexBlocks ≤ 1 by decide]

/-- The index that the second session leaves. -/
def lateIndex (n : Nat) : FileTimeIndex :=
  ⟨appKey, lateSnapshot n, [⟨0, n + 3, Time.zero, Time.zero, true⟩,
    ⟨n + 3, n + 5, Time.zero, Time.zero, true⟩]⟩

theorem run_lateRead {n m : Nat} (hn : n + 5 = 65536 * (m + 1)) (hfull : timeBlockBytes ≤ n) :
    ∃ s, (bothOpen n).run plainSetup (List.replicate (m + 1) (.turn 1 65536)) =
      ⟨grownFiles n, [lateIndex n], [.fresh appLogs firstSecond [earlySnapshot] false, s],
        false⟩ := by
  have hready : Unindexed plainSetup
      (prepareTimeIndex plainSetup [] (.fresh appLogs firstSecond [lateSnapshot n] false)
        (lateSnapshot n) ⟨1, 1, threeLines n⟩).2
      appKey (lateSnapshot n) ⟨1, 1, threeLines n⟩ 0 := ⟨rfl, rfl, rfl, rfl, rfl, rfl, rfl⟩
  obtain ⟨s, hs⟩ := World.run_unindexed (w := bothOpen n) (i := 1) m rfl
    (turn_of_no_key rfl rfl (matches_late n) rfl) hready rfl (matches_late n)
      (threeLines_length n).symm
    (by rw [Nat.zero_add]; exact hn.symm)
  refine ⟨s, ?_⟩
  rw [hs]
  have hformat : SearchSession.format plainSetup (prepareTimeIndex plainSetup (bothOpen n).indexes
    (.fresh appLogs firstSecond [lateSnapshot n] false) (lateSnapshot n) ⟨1, 1, threeLines n⟩).2 =
      plainFormat := rfl
  simp only [hformat, blocks_threeLines hfull]
  rfl

theorem cachedIndex_late (n : Nat) :
    cachedIndex plainSetup.digest [lateIndex n] appKey ⟨1, 1, threeLines n⟩ =
      (some (lateIndex n), [lateIndex n]) := by
  simp [cachedIndex, takeIndex, lateIndex, matches_late]

theorem ranges_early (n : Nat) :
    (prepareTimeIndex plainSetup [lateIndex n] (.fresh appLogs firstSecond [earlySnapshot] false)
      earlySnapshot ⟨1, 1, threeLines n⟩).2.ranges =
      [⟨0, n + 3, Time.zero, Time.zero, true⟩, .range (n + 3) 2] := by
  have hkey : indexKey plainSetup (.fresh appLogs firstSecond [earlySnapshot] false) earlySnapshot =
      appKey := rfl
  have hsize : earlySnapshot.size ≠ (lateIndex n).snap.size := by
    simp only [earlySnapshot, lateIndex, lateSnapshot]
    omega
  simp only [prepareTimeIndex, hkey, cachedIndex_late, prepared, if_neg hsize]
  rfl

/-- The first session takes its ranges from that index, although it froze two bytes. -/
theorem step_earlyTurn {n : Nat} (s : SearchSession) (hn : 65536 ≤ n) :
    ∃ s', ((⟨grownFiles n, [lateIndex n], [.fresh appLogs firstSecond [earlySnapshot] false, s],
      false⟩ : World).step plainSetup
        (.turn 0 65536)).sessions = [s', s] ∧
      s'.files[s'.filePos]? = some earlySnapshot ∧ s'.indexKey.isSome ∧
      s'.ranges = [⟨0, n + 3, Time.zero, Time.zero, true⟩, .range (n + 3) 2] := by
  have hranges := ranges_early n
  have hturn : turn plainSetup (grownFiles n) [lateIndex n]
      (.fresh appLogs firstSecond [earlySnapshot] false) 65536 = _ :=
    turn_of_no_key rfl rfl (matches_early n) rfl
  generalize hr :
    (prepareTimeIndex plainSetup [lateIndex n] (.fresh appLogs firstSecond [earlySnapshot] false)
      earlySnapshot
    ⟨1, 1, threeLines n⟩).2 = ready at hranges hturn
  have hfields : ready.rangePos = 0 ∧ ready.parser = none ∧ ready.files = [earlySnapshot] ∧
      ready.filePos = 0 ∧ ready.indexKey.isSome := by
    rw [← hr]
    exact ⟨rfl, rfl, rfl, rfl, rfl⟩
  obtain ⟨hpos, hparser, hfiles, hfile, hkey⟩ := hfields
  have hspan : ready.ranges[ready.rangePos]? = some ⟨0, n + 3, Time.zero, Time.zero, true⟩ := by
    simp [hranges, hpos]
  have hposition : ready.position ⟨0, n + 3, Time.zero, Time.zero, true⟩ = 0 := by
    simp [SearchSession.position, hparser]
  have hread := readOn_more plainSetup [lateIndex n] appKey earlySnapshot ⟨1, 1, threeLines n⟩ 65536
    (n := 65536) hspan
    (by rw [hposition]; simp only [readCount]; omega)
    (by rw [hposition, length_take, length_drop, threeLines_length]; omega)
      (by rw [hposition]; show 0 + 65536 ≠ n + 3; omega)
  have hindexes :
      (prepareTimeIndex plainSetup [lateIndex n] (.fresh appLogs firstSecond [earlySnapshot] false)
        earlySnapshot
      ⟨1, 1, threeLines n⟩).1 = [lateIndex n] := congrArg Prod.snd (cachedIndex_late n)
  rw [hindexes] at hturn
  have hfields := afterRead_fields plainSetup ready earlySnapshot.name ⟨0, n + 3, Time.zero,
    Time.zero, true⟩
    (((threeLines n).drop (ready.position ⟨0, n + 3, Time.zero, Time.zero, true⟩)).take 65536)
  generalize afterRead plainSetup ready earlySnapshot.name ⟨0, n + 3, Time.zero, Time.zero, true⟩
    (((threeLines n).drop (ready.position ⟨0, n + 3, Time.zero, Time.zero, true⟩)).take
      65536) = s' at hread hfields
  refine ⟨s', by rw [World.step_turn rfl (hturn.trans hread)]; rfl, ?_, ?_, hfields.1.trans hranges⟩
  · rw [hfields.2.1, hfields.2.2.1, hfiles, hfile]
    rfl
  · rw [hfields.2.2.2]
    exact hkey

/-- The first session froze two bytes; the second one reads the grown file, of 17 times
64 KiB, to its end before the first one takes its first turn. -/
def overtaken : List Event :=
  [.openSession appLogs firstSecond ["app.log"] false,
    .grow "/logs" "app.log" (grownLines 1114107) 1,
    .openSession appLogs firstSecond ["app.log"] false] ++
      (List.replicate 17 (.turn 1 65536) ++ [.turn 0 65536])

theorem search_outside_snapshot :
    ∃ s snap, s ∈ ((World.init oneLine).run plainSetup overtaken).sessions ∧
      s.files[s.filePos]? = some snap ∧ snap.size = 2 ∧
      s.ranges = [⟨0, 1114110, Time.zero, Time.zero, true⟩, .range 1114110 2] ∧
        ¬ Within snap.size s.ranges := by
  obtain ⟨late, hlate⟩ := run_lateRead (n := 1114107) (m := 16) rfl (by decide)
  obtain ⟨early, hsessions, hsnap, hkey, hranges⟩ := step_earlyTurn (n := 1114107) late (by decide)
  refine ⟨early, earlySnapshot, ?_, hsnap, rfl, hranges, ?_⟩
  · rw [overtaken, World.run_append, run_bothOpen, World.run_append, hlate]
    rw [World.run, World.run, hsessions]
    exact mem_cons_self
  · intro hw
    have := (hw.inside (.range 1114110 2) (by simp [hranges])).1
    exact absurd this (by decide)

end ControlTower.Logs
