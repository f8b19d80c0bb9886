import ControlTower.Logs.Bounds
import ControlTower.Logs.Summary

/-! The search finds what one parse of each file finds.

`ahead` is what a session has still to emit: the rest of the current range, the ranges
after it and the files after that, without the records that a query of its interval
neither shows nor reports. Setting the ranges from an index leaves it as it is, and every
turn takes what it emits from its front. -/
namespace ControlTower.Logs
open Go Data RecordParser List Option Bool

/-- The bytes of a frozen file. -/
def textOf (files : Files) (dir : String) (snap : FileSnapshot) : Bytes :=
  (files dir snap.name).elim [] File.content

/-- The records of the current file that are not emitted yet. -/
def currentRecords (format : LineFormat) (text : Bytes) (s : SearchSession) : List LogRecord :=
  if s.indexKey.isNone then parse format 0 text
  else match s.ranges.drop s.rangePos with
    | [] => []
    | span :: later =>
      (s.parser.getD (.start span.start)).rest format (slice text (s.position span) span.stop) ++
        rangeRecords format text later

/-- The relevant ones with the name of their file. -/
def named (q : Interval) (name : String) (rs : List LogRecord) : List (String × LogRecord) :=
  (rs.filter (relevant q)).map fun r => (name, r)

def fileRecords (setup : Setup) (files : Files) (source : Source) (query : Query)
    (snap : FileSnapshot) : List (String × LogRecord) :=
  named query.interval snap.name (parse (setup.format source.kind source.logFormat) 0
    (textOf files source.hostDir snap))

def ahead (setup : Setup) (files : Files) (s : SearchSession) : List (String × LogRecord) :=
  match s.files.drop s.filePos with
  | [] => []
  | snap :: later =>
    named s.query.interval snap.name
      (currentRecords (s.format setup) (textOf files s.source.hostDir snap) s) ++
      later.flatMap (fileRecords setup files s.source s.query)

@[simp] theorem named_append (q : Interval) (name : String) (rs rs' : List LogRecord) :
    named q name (rs ++ rs') = named q name rs ++ named q name rs' := by
  simp [named]

theorem found_irrelevant {setup : Setup} {source : Source} {query : Query} {name : String}
    {r : LogRecord}
    (h : relevant query.interval r = false) : found setup source query name r = [] := by
  simp only [relevant, or_eq_false_iff, and_eq_false_iff] at h
  have hw : wanted setup source query r = false := by
    rcases h.2 with hout | hout <;> simp [wanted, hout]
  simp [found, hw]

theorem flatMap_named (setup : Setup) (source : Source) (query : Query) (name : String)
    (rs : List LogRecord) :
    (named query.interval name rs).flatMap (fun e => found setup source query e.1 e.2) =
      rs.flatMap (found setup source query name) := by
  induction rs with
  | nil => rfl
  | cons r rs ih =>
    rw [flatMap_cons, ← ih]
    cases hr : relevant query.interval r with
    | true => simp [named, hr]
    | false => simp [named, hr, found_irrelevant hr]

theorem any_named (q : Interval) (name : String) (rs : List LogRecord) :
    (named q name rs).any (fun e => e.2.unreadable) = rs.any LogRecord.unreadable := by
  induction rs with
  | nil => rfl
  | cons r rs ih =>
    rw [any_cons, ← ih]
    cases hr : relevant q r with
    | true => simp [named, hr]
    | false =>
      have hu : r.unreadable = false := by
        simp only [relevant, or_eq_false_iff] at hr
        exact hr.1
      simp [named, hr, hu]

theorem slice_split (text : Bytes) {a b : Nat} (n : Nat) (h : a + n ≤ b) :
    slice text a b = (text.drop a).take n ++ slice text (a + n) b := by
  have hb : b - a = n + (b - (a + n)) := by omega
  rw [slice, slice, hb, take_add, drop_drop]

theorem slice_to_end (text : Bytes) (a : Nat) : slice text a text.length = text.drop a := by
  rw [slice, ← length_drop, take_length]

/-! ### Reading on -/

section Read
variable {setup : Setup} {s : SearchSession} {span : TimeBlock} {text : Bytes} {n : Nat}

/-- What a turn emits from the bytes it reads. -/
def emission (setup : Setup) (s : SearchSession) (span : TimeBlock) (data : Bytes) :
    List LogRecord :=
  ((s.parser.getD (.start span.start)).feed (s.format setup) data
    (decide (s.position span + data.length = span.stop))).2

theorem afterRead_emits (setup : Setup) (s : SearchSession) (name : String) (span : TimeBlock)
    (data : Bytes) :
    let s' := afterRead setup s name span data
    s'.pending = s.pending ++ (emission setup s span data).flatMap
      (found setup s.source s.query name) ∧
      s'.skipped = (s.skipped || (emission setup s span data).any LogRecord.unreadable) ∧
      s'.build = s.build.map (fun b => b.observeAll (emission setup s span data)) ∧
      s'.source = s.source ∧ s'.query = s.query ∧ s'.walkCut = s.walkCut := by
  simp [afterRead, emitAll_eq, emission]

/-- A turn emits the front of what is still to come. -/
theorem currentRecords_afterRead (format : LineFormat) (hformat : s.format setup = format)
    (hkey : s.indexKey.isSome)
    (hspan : s.ranges[s.rangePos]? = some span) (name : String)
    (hle : s.position span + n ≤ span.stop)
    (hlen : ((text.drop (s.position span)).take n).length = n) :
    currentRecords format text s =
      emission setup s span ((text.drop (s.position span)).take n) ++
        currentRecords format text
          (afterRead setup s name span ((text.drop (s.position span)).take n)) := by
  have hlt := (List.getElem?_eq_some_iff.mp hspan).1
  have hdrop : s.ranges.drop s.rangePos = span :: s.ranges.drop (s.rangePos + 1) := by
    rw [drop_eq_getElem_cons hlt]
    rw [List.getElem?_eq_getElem hlt, some_inj] at hspan
    rw [hspan]
  have hnone : s.indexKey.isNone = false := by simpa using hkey
  have hsplit := slice_split text n hle
  subst hformat
  by_cases hfinal : s.position span + n = span.stop
  · rw [afterRead_last setup name (by rwa [hlen]), emitAll_eq]
    simp only [currentRecords, hnone, hdrop, emission, hlen, hfinal, decide_true, feed_eq, if_true,
      false_eq_true, if_false]
    have hslice : slice text (s.position span) span.stop =
        (text.drop (s.position span)).take n := by
      rw [hsplit, hfinal, slice, Nat.sub_self, take_zero, append_nil]
    rw [hslice]
    congr 1
    cases s.ranges.drop (s.rangePos + 1) with
    | nil => rfl
    | cons next later => rfl
  · have hmore : emission setup s span ((text.drop (s.position span)).take n) =
        (s.parser.getD (.start span.start)).emitted (s.format setup)
          ((text.drop (s.position span)).take n) := by
      simp only [emission, hlen, hfinal, decide_false, feed_eq, false_eq_true, if_false]
    rw [hmore, afterRead_more setup name (by rwa [hlen]), emitAll_eq]
    simp only [currentRecords, hnone, hdrop, false_eq_true, if_false]
    rw [hsplit, rest_append, append_assoc]
    show _ = _ ++ (_ ++ _)
    rw [show s.position span + n = s.position span +
      ((text.drop (s.position span)).take n).length by rw [hlen]]
    rfl

end Read

/-! ### The index that is being built -/

/-- The build has summed up `rs`; what the last range has still to give completes it. -/
def Indexing (format : LineFormat) (text : Bytes) (s : SearchSession) : Prop :=
  ∀ b, s.build = some b → ∃ others rs, s.ranges = others ++ [.range b.next text.length] ∧
    s.rangePos ≤ others.length ∧
    (∀ r ∈ others, r.stop ≤ b.next) ∧ (b.disabled = false → Summarises b.blocks rs) ∧
    (s.rangePos < others.length → Lie 0 rs b.next ∧
      parse format 0 text = rs ++ parse format b.next (text.drop b.next)) ∧
    (s.rangePos = others.length → Lie 0 rs (s.parser.getD (.start b.next)).origin ∧
      parse format 0 text = rs ++ (s.parser.getD (.start b.next)).rest format
        (slice text (s.position (.range b.next text.length)) text.length))


section Indexing
variable {setup : Setup} {s : SearchSession} {span : TimeBlock} {text : Bytes} {format : LineFormat}

/-- The build after the records of a turn: those of a cached block are not new, those of
the last range continue it. -/
theorem Indexing.observed (h : Indexing format text s) (hread : Reading s text.length)
    (hspan : s.ranges[s.rangePos]? = some span)
    {b : IndexBuild} (hb : s.build = some b) {out : List LogRecord} {k : Nat}
    (hout : Lie (s.parser.getD (.start span.start)).origin out k) (hk : k ≤ span.stop) :
    ∃ others rs, s.ranges = others ++ [.range b.next text.length] ∧
      (∀ r ∈ others, r.stop ≤ b.next) ∧
      ((s.rangePos < others.length ∧ b.observeAll out = b ∧
        (b.disabled = false → Summarises b.blocks rs) ∧ Lie 0 rs b.next ∧
          parse format 0 text = rs ++ parse format b.next (text.drop b.next)) ∨
        (s.rangePos = others.length ∧ span = .range b.next text.length ∧
          ((b.observeAll out).disabled = false → Summarises (b.observeAll out).blocks (rs ++ out)) ∧
            Lie 0 (rs ++ out) k ∧
          parse format 0 text =
            rs ++ (s.parser.getD (.start span.start)).rest format
              (slice text (s.position span) span.stop))) := by
  obtain ⟨others, rs, hranges, hpos, hothers, hsum, hbefore, hwithin⟩ := h b hb
  refine ⟨others, rs, hranges, hothers, ?_⟩
  rcases Nat.lt_or_eq_of_le hpos with hlt | heq
  · left
    have hmem : span ∈ others := by
      rw [hranges, List.getElem?_append_left hlt] at hspan
      exact mem_of_getElem? hspan
    refine ⟨hlt, IndexBuild.observeAll_of_lt fun r hr => ?_, hsum, hbefore hlt⟩
    have := hout.bounds hr
    have := hothers span hmem
    omega
  · right
    have hlast : span = .range b.next text.length := by
      rw [hranges, heq, List.getElem?_concat_length] at hspan
      exact (Option.some.inj hspan).symm
    have hnext := (hread.asks hspan).origin
    obtain ⟨hlie, hparse⟩ := hwithin heq
    subst hlast
    exact ⟨heq, rfl, Summarises.observeAll hsum hlie hout hnext, hlie.append hout, hparse⟩

/-- A turn that does not end the last range goes on with the build. -/
theorem Indexing.afterRead (h : Indexing (s.format setup) text s) (hread : Reading s text.length)
    (hspan : s.ranges[s.rangePos]? = some span) (name : String) {n : Nat}
    (hle : s.position span + n ≤ span.stop)
    (hlen : ((text.drop (s.position span)).take n).length = n)
    (hmore : (afterRead setup s name span ((text.drop (s.position span)).take n)).rangePos ≠
      s.ranges.length) :
    Indexing (s.format setup) text
      (afterRead setup s name span ((text.drop (s.position span)).take n)) := by
  have hasks := hread.asks hspan
  have hsplit := slice_split text n hle
  generalize hdata : (text.drop (s.position span)).take n = data at *
  obtain ⟨hwf, hout⟩ := hasks.wf.run (s.format setup) data
  by_cases hfinal : s.position span + data.length = span.stop
  · rw [afterRead_last setup name hfinal, emitAll_eq] at hmore ⊢
    intro b' hb'
    obtain ⟨b, hb, rfl⟩ := map_eq_some_iff.mp hb'
    obtain ⟨others, rs, hranges, hothers, hcase⟩ :=
      h.observed hread hspan hb (hasks.rest (s.format setup) hfinal) (Nat.le_refl _)
    rcases hcase with ⟨hpos, hsame, hsum, hlie, hparse⟩ | ⟨hpos, -⟩
    · simp only [hsame]
      refine ⟨others, rs, hranges, hpos, hothers, hsum, fun _ => ⟨hlie, hparse⟩,
        fun _ => ⟨hlie, ?_⟩⟩
      rw [hparse, SearchSession.position]
      simp only [isNone_none, if_true, getD_none]
      rw [← slice_to_end]
      rfl
    · exact absurd (by simp [hranges, hpos]) hmore
  · rw [afterRead_more setup name hfinal, emitAll_eq]
    intro b' hb'
    obtain ⟨b, hb, rfl⟩ := map_eq_some_iff.mp hb'
    have horigin : ((s.parser.getD (.start span.start)).run (s.format setup) data).origin ≤
        span.stop := by
      have := hwf.origin_le
      have := hwf.behind
      have := hasks.run_offset (s.format setup) data
      omega
    obtain ⟨others, rs, hranges, hothers, hcase⟩ := h.observed hread hspan hb hout horigin
    rcases hcase with ⟨hpos, hsame, hsum, hlie, hparse⟩ | ⟨hpos, hlast, hsum, hlie, hparse⟩
    · simp only [hsame]
      exact ⟨others, rs, hranges, Nat.le_of_lt hpos, hothers, hsum, fun _ => ⟨hlie, hparse⟩,
        fun heq => absurd heq (Nat.ne_of_lt hpos)⟩
    · refine ⟨others, rs ++ (s.parser.getD (.start span.start)).emitted (s.format setup) data, ?_⟩
      simp only [IndexBuild.observeAll_next]
      refine ⟨hranges, Nat.le_of_eq hpos, hothers, hsum, fun hlt => absurd hpos (Nat.ne_of_lt hlt),
        fun _ => ⟨hlie, ?_⟩⟩
      rw [hparse, hsplit, rest_append, ← append_assoc, hlast]
      simp only [SearchSession.position, isNone_some, getD_some, false_eq_true, if_false, hlen]
      rfl

/-- A turn that ends the last range has the records of the whole file. -/
theorem Indexing.finished (h : Indexing (s.format setup) text s) (hread : Reading s text.length)
    (hspan : s.ranges[s.rangePos]? = some span) (name : String) {n : Nat}
    (hle : s.position span + n ≤ span.stop)
    (hend : (Logs.afterRead setup s name span ((text.drop (s.position span)).take n)).rangePos =
      s.ranges.length)
    {b : IndexBuild}
    (hb : (Logs.afterRead setup s name span ((text.drop (s.position span)).take n)).build = some b)
    (henabled : b.disabled = false) : Summarises b.blocks (parse (s.format setup) 0 text) := by
  have hlt := (List.getElem?_eq_some_iff.mp hspan).1
  have hsplit := slice_split text n hle
  by_cases hfinal : s.position span + ((text.drop (s.position span)).take n).length = span.stop
  · have hslice : slice text (s.position span) span.stop =
        (text.drop (s.position span)).take n := by
      rw [slice, ← hfinal, Nat.add_sub_cancel_left, length_take, take_eq_take_iff]
      omega
    rw [afterRead_last setup name hfinal, emitAll_eq] at hend hb
    obtain ⟨b₀, hb₀, rfl⟩ := map_eq_some_iff.mp hb
    have hrest := (hread.asks hspan).rest (s.format setup) hfinal
    obtain ⟨others, rs, hranges, -, hcase⟩ := h.observed hread hspan hb₀ hrest (Nat.le_refl _)
    rcases hcase with ⟨hpos, -⟩ | ⟨-, -, hsum, -, hparse⟩
    · rw [hranges, length_append, length_singleton] at hend
      exact absurd hend (by simp only; omega)
    · rw [hparse, hslice]
      exact hsum henabled
  · rw [afterRead_more setup name hfinal, emitAll_eq] at hend
    exact absurd hend (Nat.ne_of_lt hlt)

end Indexing

/-! ### A turn -/

/-- Every cached index stands for the records of its file. -/
def IndexesSound (setup : Setup) (files : Files) (indexes : List FileTimeIndex) : Prop :=
  ∀ c ∈ indexes, ∃ f, files c.key.dir c.key.name = some f ∧
    c.Sound (setup.format c.key.kind c.key.logFormat) f.content

/-- The files consist of whole lines. -/
def WholeFiles (files : Files) : Prop :=
  ∀ dir name f, files dir name = some f → WholeLines f.content

/-- The session froze the files as they are, and its ranges and its build fit them. -/
structure Exact (setup : Setup) (files : Files) (s : SearchSession) : Prop where
  frozen : ∀ snap ∈ s.files, ∃ f, files s.source.hostDir snap.name = some f ∧
    snapshotOf setup f snap.name = some snap
  sane : Sane s
  indexing : ∀ snap, s.files[s.filePos]? = some snap → s.indexKey.isSome →
    s.indexKey = some (indexKey setup s snap) ∧
      Indexing (s.format setup) (textOf files s.source.hostDir snap) s

/-- The session moved on to `s'` and emitted `out`. -/
structure Follows (setup : Setup) (files : Files) (s s' : SearchSession)
    (out : List (String × LogRecord)) : Prop where
  ahead : ahead setup files s = out ++ ahead setup files s'
  pending : s'.pending = s.pending ++ out.flatMap fun e => found setup s.source s.query e.1 e.2
  skipped : s'.skipped = (s.skipped || out.any fun e => e.2.unreadable)
  kept : s'.source = s.source ∧ s'.query = s.query ∧ s'.files = s.files ∧ s'.walkCut = s.walkCut

section Turn
variable {setup : Setup} {files : Files} {s : SearchSession} {snap : FileSnapshot} {f : File}

theorem snapshotOf_spec {name : String} (h : snapshotOf setup f name = some snap) :
    snap.size = f.content.length ∧ snapshotMatches setup.digest f snap = true := by
  obtain ⟨signature, hsig, rfl⟩ := map_eq_some_iff.mp h
  exact ⟨rfl, by simp [snapshotMatches, hsig]⟩

theorem textOf_eq {dir : String} (h : files dir snap.name = some f) :
    textOf files dir snap = f.content := by
  simp [textOf, h]

/-- Before the ranges are set, whole files are to come. -/
theorem ahead_idle (h : s.indexKey = none) :
    ahead setup files s = (s.files.drop s.filePos).flatMap
      (fileRecords setup files s.source s.query) := by
  simp only [ahead, currentRecords, h, isNone_none, if_true]
  cases s.files.drop s.filePos with
  | nil => rfl
  | cons snap later => rfl

theorem ahead_eq (setup : Setup) (files : Files) (hsnap : s.files[s.filePos]? = some snap) :
    ahead setup files s =
      named s.query.interval snap.name
        (currentRecords (s.format setup) (textOf files s.source.hostDir snap) s) ++
        ahead setup files s.nextFile := by
  have hlt := (List.getElem?_eq_some_iff.mp hsnap).1
  rw [List.getElem?_eq_getElem hlt, some_inj] at hsnap
  rw [ahead, drop_eq_getElem_cons hlt, hsnap, ahead_idle rfl]
  rfl

theorem Exact.nextFile (h : Exact setup files s) : Exact setup files s.nextFile :=
  ⟨h.frozen, .nextFile s, nofun⟩

variable {indexes : List FileTimeIndex}

/-- A turn of a session whose ranges are set. -/
theorem Exact.readOn (h : Exact setup files s) (hsnap : s.files[s.filePos]? = some snap)
    (hf : files s.source.hostDir snap.name = some f) (hsize : snap.size = f.content.length)
    (hwhole : WholeFiles files)
    (hkey : s.indexKey.isSome) (hidx : IndexesSound setup files indexes) (room : Nat) :
    ∃ indexes' s' n out, readOn setup indexes s (indexKey setup s snap) snap f room =
      .moved indexes' s' n ∧
      IndexesSound setup files indexes' ∧ Exact setup files s' ∧ Follows setup files s s' out := by
  have hread := h.sane.reading snap hsnap hkey
  obtain ⟨hsame, hbuild⟩ := h.indexing snap hsnap hkey
  have htext := textOf_eq hf
  rw [htext] at hbuild
  rw [hsize] at hread
  have hahead := ahead_eq setup files hsnap
  rw [htext] at hahead
  cases hspan : s.ranges[s.rangePos]? with
  | none =>
    have hnone : s.build = none := by
      cases hb : s.build with
      | none => rfl
      | some b =>
        obtain ⟨others, hranges, hpos, -⟩ := hread.build b hb
        rw [List.getElem?_eq_none_iff, hranges, length_append, length_singleton] at hspan
        omega
    refine ⟨indexes, s.nextFile, 0, [], by simp only [Logs.readOn, hspan, finishFile, hnone,
      finishedIndex], hidx, h.nextFile, ?_⟩
    have hdrop : s.ranges.drop s.rangePos = [] :=
      drop_eq_nil_of_le (List.getElem?_eq_none_iff.mp hspan)
    have hdone : currentRecords (s.format setup) f.content s = [] := by
      simp only [currentRecords, hdrop]
      rw [if_neg (by simp [hsame])]
    constructor
    case ahead => rw [hahead, hdone]; rfl
    case pending => simp [SearchSession.nextFile]
    case skipped => simp [SearchSession.nextFile]
    case kept => exact ⟨rfl, rfl, rfl, rfl⟩
  | some span =>
    have hasks := hread.asks hspan
    have hcount := readCount_nonneg hasks.inside room
    have hstop := (hread.within.inside span (mem_of_getElem? hspan)).2
    have hle : s.position span + (readCount span (s.position span) room).toNat ≤ span.stop := by
      have := readCount_le span (s.position span) room
      omega
    have hlen :
        ((f.content.drop (s.position span)).take
          (readCount span (s.position span) room).toNat).length =
        (readCount span (s.position span) room).toNat := by
      rw [length_take, length_drop]
      omega
    simp only [Logs.readOn, hspan, readRange, if_neg (Int.not_lt.mpr hcount)]
    generalize (readCount span (s.position span) room).toNat = n at hle hlen
    have hcur := currentRecords_afterRead (s.format setup) rfl hkey hspan snap.name hle hlen
    obtain ⟨hranges, hfiles, hpos, hkept⟩ := afterRead_fields setup s snap.name span
      ((f.content.drop (s.position span)).take n)
    obtain ⟨hpending, hskipped, -, hsource, hquery, hcut⟩ :=
      afterRead_emits setup s snap.name span ((f.content.drop (s.position span)).take n)
    have hreading := @Reading.afterRead setup s f.content.length span _ hread hspan snap.name
      (by rwa [hlen])
    have hindexing := hbuild.afterRead hread hspan snap.name hle hlen
    have hfinished := @Indexing.finished setup s span f.content hbuild hread hspan snap.name n hle
    rw [hlen, if_neg (Nat.lt_irrefl n), hranges]
    generalize emission setup s span ((f.content.drop (s.position span)).take n) = out at *
    generalize Logs.afterRead setup s snap.name span ((f.content.drop (s.position span)).take n) =
      s' at *
    have hsnap' : s'.files[s'.filePos]? = some snap := by rw [hfiles, hpos, hsnap]
    have hahead' := ahead_eq setup files hsnap'
    rw [hsource, hquery, htext, show s'.format setup = s.format setup by
      simp only [SearchSession.format, hsource]] at hahead'
    have hnext : ahead setup files s'.nextFile = ahead setup files s.nextFile := by
      rw [ahead_idle rfl, ahead_idle rfl]
      simp only [SearchSession.nextFile, hsource, hquery, hfiles, hpos]
    have hfollows : Follows setup files s s' (named s.query.interval snap.name out) := by
      constructor
      case ahead => rw [hahead, hahead', hcur, named_append, hnext, append_assoc]
      case pending => rw [flatMap_named, hpending]
      case skipped => rw [any_named, hskipped]
      case kept => exact ⟨hsource, hquery, hfiles, hcut⟩
    have hfrozen : ∀ snap ∈ s'.files, ∃ f, files s'.source.hostDir snap.name = some f ∧
        snapshotOf setup f snap.name = some snap := by
      rw [hfiles, hsource]
      exact h.frozen
    by_cases hend : s'.rangePos = s.ranges.length
    · rw [if_pos hend]
      refine ⟨_, _, _, named s.query.interval snap.name out, rfl, fun c hc => ?_,
        ⟨hfrozen, .nextFile s', fun _ _ hkey => by cases hkey⟩, ?_⟩
      · rcases mem_finishedIndex hc with hc | ⟨b, hb, henabled, rfl⟩
        · exact hidx c hc
        · have hall : f.content.take snap.size = f.content := by rw [hsize, take_length]
          refine ⟨f, hf, Nat.le_of_eq hsize, ?_, ?_⟩
          · rw [hall]
            exact hwhole _ _ f hf
          · rw [hall]
            exact hfinished hend hb henabled
      · -- The last range is read, so nothing of the file is left.
        have hdrop : s'.ranges.drop s'.rangePos = [] := by rw [hranges, hend, drop_length]
        have hdone : currentRecords (s.format setup) f.content s' = [] := by
          simp only [currentRecords, hdrop]
          rw [if_neg (by simp [hkept, hsame])]
        refine ⟨?_, hfollows.pending, hfollows.skipped, hfollows.kept⟩
        rw [hfollows.ahead, hahead', hdone]
        rfl
    · rw [if_neg hend]
      refine ⟨_, _, _, _, rfl, hidx, ⟨hfrozen, ⟨?_, ?_⟩, ?_⟩, hfollows⟩
      · intro hnone
        simp [hkept, hsame] at hnone
      · intro snap' hs _
        rw [hsnap', some_inj] at hs
        rw [← hs, hsize]
        exact hreading hend
      · intro snap' hs _
        rw [hsnap', some_inj] at hs
        subst hs
        refine ⟨?_, ?_⟩
        · rw [hkept, hsame]
          simp only [indexKey, hsource]
        · rw [hsource, htext]
          simp only [SearchSession.format, hsource]
          exact hindexing hend

/-- Ranges that were just set are read from the start. -/
theorem currentRecords_ready {format : LineFormat} {text : Bytes} (hkey : s.indexKey.isNone = false)
    (hpos : s.rangePos = 0)
    (hparser : s.parser = none) :
      currentRecords format text s = rangeRecords format text s.ranges := by
  simp only [currentRecords, hkey, hpos, drop_zero, SearchSession.position, hparser, isNone_none,
    if_true,
    getD_none, false_eq_true, if_false]
  cases s.ranges with
  | nil => rfl
  | cons span later => rfl

/-- Setting the ranges from an index changes nothing of what is to come. -/
theorem Exact.prepare (h : Exact setup files s) (hsnap : s.files[s.filePos]? = some snap)
    (hf : files s.source.hostDir snap.name = some f) (hsize : snap.size = f.content.length)
    (hkey : s.indexKey = none) (hidx : IndexesSound setup files indexes) :
    let ready := prepareTimeIndex setup indexes s snap f
    IndexesSound setup files ready.1 ∧ Exact setup files ready.2 ∧
      Follows setup files s ready.2 [] := by
  obtain ⟨hcached, hothers⟩ := cachedIndex_spec setup.digest (indexKey setup s snap) indexes f
  have hsound : ∀ c, (cachedIndex setup.digest indexes (indexKey setup s snap) f).1 = some c →
      c.Sound (s.format setup) f.content := by
    intro c hc
    obtain ⟨hmem, hck, -⟩ := hcached c hc
    obtain ⟨f', hf', hs⟩ := hidx c hmem
    rw [hck] at hf' hs
    have : f' = f := Option.some.inj (hf'.symm.trans hf)
    subst this
    exact hs
  obtain ⟨hparser, hpos⟩ := h.sane.idle hkey
  obtain ⟨hrecords, hbuild⟩ := prepared_spec s.query.interval hsound
  have hread : Reading (prepareTimeIndex setup indexes s snap f).2 snap.size := by
    refine Reading.prepared (fun c hc => (hsound c hc).lies)
      (fun c hc => .inr ?_) rfl rfl hpos hparser
    have := (hsound c hc).lies.keptStop_le
    have := (hsound c hc).size
    omega
  refine ⟨fun c hc => hidx c (hothers c hc), ⟨h.frozen, ⟨nofun, ?_⟩, ?_⟩, ?_⟩
  · intro snap' hs _
    have hs : s.files[s.filePos]? = some snap' := hs
    rw [hsnap, some_inj] at hs
    subst hs
    exact hread
  · intro snap' hs _
    have hs : s.files[s.filePos]? = some snap' := hs
    rw [hsnap, some_inj] at hs
    subst hs
    refine ⟨rfl, fun b hb => ?_⟩
    rw [show textOf files (prepareTimeIndex setup indexes s snap f).2.source.hostDir snap =
      f.content from textOf_eq hf]
    obtain ⟨others, hranges, hle, hstops, -⟩ := hread.build b hb
    rw [hsize] at hranges
    have hb :
        (prepared s.query.interval f.content.length
          (cachedIndex setup.digest indexes (indexKey setup s snap) f).1).2 = some b := by
      rw [← hsize]
      exact hb
    obtain ⟨rs, hsum, hlie, hparse⟩ := hbuild b hb
    refine ⟨others, rs, hranges, hle, hstops, fun _ => hsum, fun _ => ⟨hlie, hparse⟩, fun _ => ?_⟩
    have hnone : (prepareTimeIndex setup indexes s snap f).2.parser = none := hparser
    simp only [SearchSession.position, hnone, isNone_none, if_true, getD_none]
    refine ⟨hlie, ?_⟩
    rw [show (TimeBlock.range b.next f.content.length).start = b.next from rfl, slice_to_end]
    exact hparse
  · constructor
    case ahead =>
      have hahead := ahead_eq setup files (s := (prepareTimeIndex setup indexes s snap f).2) hsnap
      have hranges :
          currentRecords (s.format setup) f.content (prepareTimeIndex setup indexes s snap f).2 =
          rangeRecords (s.format setup) f.content
            (prepared s.query.interval f.content.length
              (cachedIndex setup.digest indexes (indexKey setup s snap) f).1).1 := by
        rw [← hsize]
        exact currentRecords_ready rfl hpos hparser
      have hidle : currentRecords (s.format setup) f.content s =
          parse (s.format setup) 0 f.content := by
        simp [currentRecords, hkey]
      rw [ahead_eq setup files hsnap, nil_append, hahead, textOf_eq hf]
      congr 1
      rw [show textOf files (prepareTimeIndex setup indexes s snap f).2.source.hostDir snap =
        f.content from textOf_eq hf, hidle]
      simp only [named]
      rw [← hrecords, ← hranges]
      rfl
    case pending => simp [prepareTimeIndex]
    case skipped => simp [prepareTimeIndex]
    case kept => exact ⟨rfl, rfl, rfl, rfl⟩

/-- A turn on a file that has not changed reads on. -/
theorem Exact.turn (h : Exact setup files s) (hwhole : WholeFiles files)
    (hidx : IndexesSound setup files indexes) (hlt : s.filePos < s.files.length) (room : Nat) :
    ∃ indexes' s' n out, turn setup files indexes s room = .moved indexes' s' n ∧
      IndexesSound setup files indexes' ∧ Exact setup files s' ∧ Follows setup files s s' out := by
  have hsnap : s.files[s.filePos]? = some s.files[s.filePos] := List.getElem?_eq_getElem hlt
  generalize s.files[s.filePos] = snap at hsnap
  obtain ⟨f, hf, hfrozen⟩ := h.frozen snap (mem_of_getElem? hsnap)
  obtain ⟨hsize, hmatch⟩ := snapshotOf_spec hfrozen
  simp only [Logs.turn, hsnap, hf, hmatch, if_true]
  cases hkey : s.indexKey with
  | some key =>
    have hsome : s.indexKey.isSome := by simp [hkey]
    have hsame := (h.indexing snap hsnap hsome).1
    rw [hkey, some_inj] at hsame
    subst hsame
    exact h.readOn hsnap hf hsize hwhole hsome hidx room
  | none =>
    obtain ⟨hidx', hready, hfollows⟩ := h.prepare hsnap hf hsize hkey hidx
    obtain ⟨indexes', s', n, out, heq, hsound, hexact, hread⟩ :=
      hready.readOn hsnap hf hsize hwhole rfl hidx' room
    refine ⟨indexes', s', n, out, heq, hsound, hexact, ?_⟩
    constructor
    case ahead => rw [hfollows.ahead, nil_append, hread.ahead]
    case pending => exact hread.pending
    case skipped => exact hread.skipped
    case kept => exact hread.kept

end Turn

/-! ### A page -/

/-- The line fits on a page. -/
def short (max : Nat) (l : Bytes) : Bool := decide (l.length ≤ max)

theorem drain_spec (limits : Limits) (page : Page) (skipped : Bool) (pending : List Bytes) :
    ∃ lines, (drain limits page skipped pending).1.lines = page.lines ++ lines ∧
      lines ++ (drain limits page skipped pending).2.2.1.filter (short limits.maxResultBytes) =
        pending.filter (short limits.maxResultBytes) ∧
      ((drain limits page skipped pending).2.1 ||
          (drain limits page skipped pending).2.2.1.any fun l => !short limits.maxResultBytes l) =
        (skipped || pending.any fun l => !short limits.maxResultBytes l) := by
  induction pending generalizing page skipped with
  | nil => exact ⟨[], by simp [drain], rfl, rfl⟩
  | cons l rest ih =>
    simp only [drain]
    split
    next hlong =>
      have hshort : short limits.maxResultBytes l = false := by simpa [short] using hlong
      obtain ⟨lines, hlines, hleft, hskip⟩ := ih page true
      refine ⟨lines, hlines, ?_, ?_⟩
      · rw [hleft, filter_cons_of_neg (by simp [hshort])]
      · rw [hskip]
        simp [hshort]
    next hlong =>
      split
      next => exact ⟨[], by simp, rfl, rfl⟩
      next =>
        have hshort : short limits.maxResultBytes l = true := by simpa [short] using hlong
        obtain ⟨lines, hlines, hleft, hskip⟩ :=
          ih { page with lines := page.lines ++ [l], total := page.total + l.length } skipped
        refine ⟨l :: lines, by rw [hlines]; simp, ?_, ?_⟩
        · rw [cons_append, hleft, filter_cons_of_pos hshort]
        · rw [hskip]
          simp [hshort]

/-- What the search was asked for. -/
structure Asked where
  source : Source
  query : Query
  files : List FileSnapshot
  walkCut : Bool
  maxResultBytes : Nat

namespace Asked
variable (setup : Setup) (files : Files) (a : Asked)

/-- All records that matter, file by file. -/
def records : List (String × LogRecord) :=
  a.files.flatMap (fileRecords setup files a.source a.query)

def lines (rs : List (String × LogRecord)) : List Bytes :=
  rs.flatMap fun e => found setup a.source a.query e.1 e.2

/-- A record could not be read, or one of its lines is too long. -/
def skips (rs : List (String × LogRecord)) : Bool :=
  (rs.any fun e => e.2.unreadable) || (a.lines setup rs).any fun l => !short a.maxResultBytes l

theorem lines_append (rs rs' : List (String × LogRecord)) :
    a.lines setup (rs ++ rs') = a.lines setup rs ++ a.lines setup rs' := by
  simp [lines]

theorem skips_append (rs rs' : List (String × LogRecord)) :
    a.skips setup (rs ++ rs') = (a.skips setup rs || a.skips setup rs') := by
  rw [skips, lines_append, any_append, any_append, skips, skips]
  ac_rfl

end Asked

/-- The session has emitted `past`; of its lines the short ones are delivered or pending. -/
structure Progress (setup : Setup) (files : Files) (a : Asked) (s : SearchSession)
    (delivered : List Bytes) : Prop where
  exact : Exact setup files s
  asked : s.source = a.source ∧ s.query = a.query ∧ s.files = a.files ∧ s.walkCut = a.walkCut
  emitted : ∃ past, a.records setup files = past ++ ahead setup files s ∧
    delivered ++ s.pending.filter (short a.maxResultBytes) = (a.lines setup past).filter
      (short a.maxResultBytes) ∧
    (s.skipped || s.pending.any fun l => !short a.maxResultBytes l) = a.skips setup past

section Page
variable {setup : Setup} {files : Files} {a : Asked} {s : SearchSession} {before : List Bytes}

theorem Progress.deliver {page : Page} (h : Progress setup files a s (before ++ page.lines))
    {limits : Limits}
    (hmax : limits.maxResultBytes = a.maxResultBytes) :
    Progress setup files a (deliver limits page s).2.1
      (before ++ (deliver limits page s).1.lines) := by
  obtain ⟨past, hrecords, hlines, hskipped⟩ := h.emitted
  obtain ⟨lines, hpage, hleft, hskip⟩ := drain_spec limits page s.skipped s.pending
  rw [hmax] at hleft hskip
  have hsane := h.exact.sane
  refine ⟨⟨h.exact.frozen, ⟨hsane.idle, fun snap hsnap hkey => ?_⟩, h.exact.indexing⟩, h.asked,
    past, hrecords, ?_, ?_⟩
  · have hr := hsane.reading snap hsnap hkey
    exact ⟨hr.within, hr.parser, hr.build⟩
  · rw [← hlines, ← hleft]
    simp only [Logs.deliver, hpage, append_assoc]
  · rw [← hskipped, ← hskip]
    rfl

theorem Progress.follows (h : Progress setup files a s before) {s' : SearchSession}
    {out : List (String × LogRecord)}
    (hf : Follows setup files s s' out) (hexact : Exact setup files s') :
      Progress setup files a s' before := by
  obtain ⟨past, hrecords, hlines, hskipped⟩ := h.emitted
  obtain ⟨hsource, hquery, hfiles, hcut⟩ := h.asked
  obtain ⟨hsource', hquery', hfiles', hcut'⟩ := hf.kept
  have hnew : s'.pending = s.pending ++ a.lines setup out := by rw [hf.pending, Asked.lines,
    hsource, hquery]
  refine ⟨hexact, ⟨hsource'.trans hsource, hquery'.trans hquery, hfiles'.trans hfiles,
    hcut'.trans hcut⟩, past ++ out, ?_, ?_, ?_⟩
  · rw [hrecords, hf.ahead, append_assoc]
  · rw [hnew, filter_append, ← append_assoc, hlines, Asked.lines_append, filter_append]
  · rw [hf.skipped, hnew, Asked.skips_append, ← hskipped, Asked.skips, any_append]
    ac_rfl

/-- A page never fails, and the session goes on where it stopped. -/
theorem Progress.page (hwhole : WholeFiles files) {limits : Limits}
    (hmax : limits.maxResultBytes = a.maxResultBytes)
    (deadline : Nat) (st : PageState)
    (h : Progress setup files a st.session (before ++ st.page.lines))
    (hidx : IndexesSound setup files st.indexes) :
    ∃ st', pageLoop setup limits files deadline st = (st', .returned) ∧
      Progress setup files a st'.session (before ++ st'.page.lines) ∧
        IndexesSound setup files st'.indexes := by
  induction deadline generalizing st with
  | zero =>
    have hd := h.deliver hmax
    unfold pageLoop
    dsimp only
    split
    next => exact ⟨_, rfl, hd, hidx⟩
    next =>
      split
      next => exact ⟨_, rfl, hd, hidx⟩
      next => exact ⟨_, rfl, hd, hidx⟩
  | succ deadline ih =>
    have hd := h.deliver hmax
    unfold pageLoop
    dsimp only
    split
    next => exact ⟨_, rfl, hd, hidx⟩
    next =>
      split
      next => exact ⟨_, rfl, hd, hidx⟩
      next hmore =>
        split
        next => exact ⟨_, rfl, hd, hidx⟩
        next =>
          split
          next => exact ⟨_, rfl, hd, hidx⟩
          next =>
            obtain ⟨indexes', s', n, out, heq, hidx', hexact, hfollows⟩ :=
              hd.exact.turn hwhole hidx (by omega)
              (limits.pageBytes - (Logs.deliver limits st.page st.session).1.scannedBytes)
            rw [heq]
            exact ih _ (hd.follows hfollows hexact) hidx'

end Page

end ControlTower.Logs
