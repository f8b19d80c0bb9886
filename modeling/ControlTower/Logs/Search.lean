import ControlTower.Logs.Exact

/-! Searches one after the other on one engine.

A search is a query and its continuations, each with the cursor of the page before; a
page whose answer was lost is asked for again. The files stay as they are during a
search and grow by whole lines between searches. Whatever the engine has in its time
indexes and wherever the pages stop, the pages of a finished search are what one parse of
every frozen file gives. -/
namespace ControlTower.Logs
open Go Data RecordParser List

/-! ### What a search has to give -/

namespace Asked
variable (setup : Setup) (files : Files) (a : Asked)

/-- The records of a frozen file. -/
def parsed (snap : FileSnapshot) : List LogRecord :=
  parse (setup.format a.source.kind a.source.logFormat) 0 (textOf files a.source.hostDir snap)

/-- The lines of the records that the query asks for, without those that no page can hold. -/
def expected : List Bytes :=
  (a.files.flatMap fun snap => (a.parsed setup files snap).flatMap
    (found setup a.source a.query snap.name)).filter
    (short a.maxResultBytes)

/-- A record that could not be read, or a line that no page can hold. -/
def expectedSkipped : Bool :=
  a.files.any fun snap => (a.parsed setup files snap).any fun r =>
    r.unreadable || (found setup a.source a.query snap.name r).any fun l =>
      !short a.maxResultBytes l

theorem lines_records : a.lines setup (a.records setup files) =
    a.files.flatMap fun snap => (a.parsed setup files snap).flatMap
      (found setup a.source a.query snap.name) := by
  simp only [lines, records, flatMap_assoc, fileRecords, flatMap_named, parsed]

theorem skips_records : a.skips setup (a.records setup files) = a.expectedSkipped setup files := by
  rw [skips, lines_records, records, expectedSkipped]
  induction a.files with
  | nil => rfl
  | cons snap later ih =>
    have hany : ∀ rs : List LogRecord, (rs.any fun r =>
        r.unreadable || (found setup a.source a.query snap.name r).any fun l =>
          !short a.maxResultBytes l) =
        (rs.any LogRecord.unreadable ||
          (rs.flatMap (found setup a.source a.query snap.name)).any fun l =>
            !short a.maxResultBytes l) := by
      intro rs
      induction rs with
      | nil => rfl
      | cons r rs ih =>
        rw [any_cons, ih, any_cons, flatMap_cons, any_append]
        ac_rfl
    rw [any_cons, ← ih, hany, flatMap_cons, flatMap_cons, any_append, any_append, fileRecords,
      any_named]
    simp only [parsed]
    ac_rfl

end Asked

/-! ### Searches -/

/-- A call with the limits of the search, a cursor that was not used before, and within
the lifetime of the session that it continues. -/
structure Call.Serves (call : Call) (max : Nat) (e : StreamEngine) (cursor : String) : Prop where
  limit : call.limits.maxResultBytes = max
  named : call.token ≠ ""
  fresh : ∀ s ∈ e.sessions, call.token ≠ s.current ∧ call.token ≠ s.previous
  timely : ∀ s ∈ e.sessions, cursor ≠ "" → s.current = cursor ∨ s.previous = cursor →
    ¬ s.expires < call.now

/-- The engine after some calls of a search, the cursor asked for last and the pages so far. -/
inductive Search (setup : Setup) (files : Files) (a : Asked) (before : StreamEngine) :
    StreamEngine → String → List Result → Prop
  | first {call : Call} {e : StreamEngine} {r : Result}
      (hcall : call.Serves a.maxResultBytes before "")
      (hfiles : snapshot setup files a.source.hostDir call.names = some a.files)
      (hcut : call.walkCut = a.walkCut)
      (h : querySource setup files call before a.source a.query "" = some (e, r)) :
      Search setup files a before e "" [r]
  | next {call : Call} {e e' : StreamEngine} {asked : String} {rs : List Result} {r r' : Result}
      (hs : Search setup files a before e asked rs) (hlast : rs.getLast? = some r)
      (hmore : r.nextCursor ≠ "")
      (hcall : call.Serves a.maxResultBytes e r.nextCursor)
      (h : querySource setup files call e a.source a.query r.nextCursor = some (e', r')) :
      Search setup files a before e' r.nextCursor (rs ++ [r'])
  | again {call : Call} {e e' : StreamEngine} {asked : String} {rs : List Result} {r : Result}
      (hs : Search setup files a before e asked rs) (hasked : asked ≠ "")
      (hcall : call.Serves a.maxResultBytes e asked)
      (h : querySource setup files call e a.source a.query asked = some (e', r)) :
      Search setup files a before e' asked rs

/-- Files grow by whole lines, and new files consist of whole lines. -/
structure Grows (files files' : Files) : Prop where
  grown : ∀ dir name f, files dir name = some f → ∃ more modTime, WholeLines more ∧
    files' dir name = some { f with content := f.content ++ more, modTime := modTime }
  new : ∀ dir name f, files dir name = none → files' dir name = some f → WholeLines f.content

/-- The engine after finished searches, one after the other. -/
inductive Reached (setup : Setup) : Files → StreamEngine → Prop
  | new {files : Files} (h : WholeFiles files) : Reached setup files .new
  | grow {files files' : Files} {e : StreamEngine} (h : Reached setup files e)
      (hg : Grows files files') : Reached setup files' e
  | search {files : Files} {a : Asked} {e e' : StreamEngine} {asked : String} {rs : List Result}
      {r : Result} (h : Reached setup files e) (hs : Search setup files a e e' asked rs)
      (hlast : rs.getLast? = some r)
      (hcomplete : r.complete = true) : Reached setup files e'

/-! ### The engine between and during searches -/

structure Idle (setup : Setup) (files : Files) (e : StreamEngine) : Prop where
  whole : WholeFiles files
  indexes : IndexesSound setup files e.indexes
  finished : ∀ s ∈ e.sessions, s.current = ""
  room : e.sessions.length ≤ maxSessions

/-- The last session is the one of the search; no other knows its cursors. -/
structure Active (setup : Setup) (files : Files) (a : Asked) (e : StreamEngine) (asked : String)
    (rs : List Result)
    (others : List Session) (s : Session) (r : Result) : Prop where
  whole : WholeFiles files
  indexes : IndexesSound setup files e.indexes
  sessions : e.sessions = others ++ [s]
  finished : ∀ o ∈ others, o.current = ""
  room : others.length < maxSessions
  cursors : s.current = r.nextCursor ∧ s.previous = asked ∧
    (r.nextCursor ≠ "" → r.nextCursor ≠ asked)
  apart : ∀ o ∈ others, (asked ≠ "" → o.previous ≠ asked) ∧
    (r.nextCursor ≠ "" → o.previous ≠ r.nextCursor)
  last : rs.getLast? = some r ∧ s.lastResult = r
  progress : Progress setup files a s.toSearchSession (rs.flatMap Result.lines)
  succeeded : ∀ r ∈ rs, r.status = .succeeded
  ends : r.complete = !s.unfinished ∧ (r.nextCursor = "" ↔ s.unfinished = false) ∧
    r.truncated = (s.walkCut || s.skipped)

section Calls
variable {setup : Setup} {files : Files} {a : Asked} {e : StreamEngine}

theorem Idle.grow {files' : Files} (h : Idle setup files e) (hg : Grows files files') :
    Idle setup files' e where
  whole dir name f' hf' := by
    cases hf : files dir name with
    | none => exact hg.new dir name f' hf hf'
    | some f =>
      obtain ⟨more, modTime, hmore, heq⟩ := hg.grown dir name f hf
      rw [heq, Option.some_inj] at hf'
      rw [← hf']
      exact (h.whole dir name f hf).append hmore
  indexes c hc := by
    obtain ⟨f, hf, hsound⟩ := h.indexes c hc
    obtain ⟨more, modTime, -, heq⟩ := hg.grown _ _ f hf
    exact ⟨_, heq, hsound.grow more⟩
  finished := h.finished
  room := h.room

/-- What is added to the result of a page that did not fail. -/
theorem conclude_spec (s : SearchSession) {token : String} (htoken : token ≠ "") (page : Page) :
    let r := conclude s token (pageResult page .returned)
    r.status = .succeeded ∧ r.lines = page.lines ∧ r.complete = !s.unfinished ∧
      (r.nextCursor = "" ↔ s.unfinished = false) ∧
      (r.nextCursor = "" ∨ r.nextCursor = token) ∧ r.truncated = (s.walkCut || s.skipped) := by
  cases hu : s.unfinished <;> simp [conclude, pageResult, hu, htoken]

variable {call : Call}

/-- A page of the session of a search. -/
theorem answer_active {others : List Session} {s : Session} (old : Session)
    {indexes : List FileTimeIndex} {cursor : String}
    {rs : List Result} (hwhole : WholeFiles files) (hidx : IndexesSound setup files indexes)
    (hprogress : Progress setup files a s.toSearchSession (rs.flatMap Result.lines))
    (hrs : ∀ r ∈ rs, r.status = .succeeded)
    (hothers : ∀ o ∈ others, o.current = "" ∧ o.previous ≠ call.token ∧
      (cursor ≠ "" → o.previous ≠ cursor))
    (hroom : others.length < maxSessions) (hmax : call.limits.maxResultBytes = a.maxResultBytes)
    (htoken : call.token ≠ "")
    (hcursor : call.token ≠ cursor) :
    ∃ e' s' r, answer setup files call indexes (others ++ [old]) others.length s cursor =
      some (e', r) ∧
      Active setup files a e' cursor (rs ++ [r]) others s' r := by
  have hstart : Progress setup files a
      s.toSearchSession (rs.flatMap Result.lines ++ Page.empty.lines) := by
    simpa [Page.empty] using hprogress
  obtain ⟨st, hloop, hst, hidx'⟩ := Progress.page hwhole hmax call.deadline ⟨indexes,
    s.toSearchSession, .empty⟩ hstart hidx
  obtain ⟨hstatus, hlines, hcomplete, hnext, htokens, htruncated⟩ :=
    conclude_spec st.session htoken st.page
  simp only [answer, hloop]
  generalize conclude st.session call.token (pageResult st.page .returned) = r at *
  refine ⟨_,
    { s with
      toSearchSession := st.session, previous := cursor, current := r.nextCursor, lastResult := r },
    r, rfl, ?_⟩
  constructor
  case whole => exact hwhole
  case indexes => exact hidx'
  case sessions => simp
  case finished => exact fun o ho => (hothers o ho).1
  case room => exact hroom
  case cursors =>
    refine ⟨rfl, rfl, fun hne => ?_⟩
    rw [htokens.resolve_left hne]
    exact hcursor
  case apart =>
    intro o ho
    refine ⟨(hothers o ho).2.2, fun hne => ?_⟩
    rw [htokens.resolve_left hne]
    exact (hothers o ho).2.1
  case last => exact ⟨List.getLast?_concat, rfl⟩
  case progress =>
    rw [flatMap_append, flatMap_singleton, hlines]
    exact hst
  case succeeded =>
    intro r' hr'
    rcases mem_append.mp hr' with hr' | hr'
    · exact hrs r' hr'
    · rw [mem_singleton.mp hr']
      exact hstatus
  case ends => exact ⟨hcomplete, hnext, htruncated⟩

theorem makeRoom_spec {sessions : List Session} (hfinished : ∀ s ∈ sessions, s.current = "")
    (hroom : sessions.length ≤ maxSessions) :
    (makeRoom sessions).length < maxSessions ∧ ∀ s ∈ makeRoom sessions, s ∈ sessions := by
  rw [makeRoom]
  split
  next hfull =>
    refine ⟨?_, fun s hs => mem_of_mem_eraseP hs⟩
    obtain ⟨s, hs⟩ : ∃ s, s ∈ sessions :=
      exists_mem_of_length_pos (by simp only [maxSessions] at hfull; omega)
    rw [length_eraseP_of_mem hs (by simpa using hfinished s hs)]
    simp only [maxSessions] at *
    omega
  next hfree => exact ⟨by omega, fun s hs => hs⟩

theorem mem_of_mapM {α β : Type} {f : α → Option β} {xs : List α} {ys : List β}
    (h : xs.mapM f = some ys) {y : β} (hy : y ∈ ys) :
    ∃ x ∈ xs, f x = some y := by
  induction xs generalizing ys with
  | nil =>
    cases h
    cases hy
  | cons x xs ih =>
    rw [mapM_cons] at h
    obtain ⟨z, hz, h⟩ := Option.bind_eq_some_iff.mp h
    obtain ⟨zs, hzs, h⟩ := Option.bind_eq_some_iff.mp h
    cases h
    rcases mem_cons.mp hy with rfl | hy
    · exact ⟨x, mem_cons_self, hz⟩
    · obtain ⟨x', hx', heq⟩ := ih hzs hy
      exact ⟨x', mem_cons_of_mem _ hx', heq⟩

/-- A snapshot is one of a file as it is. -/
theorem snapshot_frozen {dir : String} {names : List String} {snaps : List FileSnapshot}
    (h : snapshot setup files dir names = some snaps)
    {snap : FileSnapshot} (hsnap : snap ∈ snaps) :
    ∃ f, files dir snap.name = some f ∧ snapshotOf setup f snap.name = some snap := by
  obtain ⟨found, hfound, hsnaps⟩ := Option.bind_eq_some_iff.mp h
  obtain ⟨⟨name, f⟩, hentry, heq⟩ := mem_of_mapM hsnaps hsnap
  have hmem : (name, f) ∈ found := by
    have hsorted : (name, f) ∈ found.mergeSort newer := mem_of_mem_take hentry
    exact mem_mergeSort.mp hsorted
  obtain ⟨name', -, hname⟩ := mem_of_mapM hfound hmem
  obtain ⟨f', hf', hpair⟩ := Option.map_eq_some_iff.mp hname
  cases hpair
  have hsame : snap.name = name := by
    obtain ⟨signature, -, rfl⟩ := Option.map_eq_some_iff.mp heq
    rfl
  rw [hsame]
  exact ⟨f, hf', heq⟩

/-- The first page. -/
theorem Idle.first (h : Idle setup files e) (hcall : call.Serves a.maxResultBytes e "")
    (hfiles : snapshot setup files a.source.hostDir call.names = some a.files)
    (hcut : call.walkCut = a.walkCut) :
    ∃ e' others s r, querySource setup files call e a.source a.query "" = some (e', r) ∧
      Active setup files a e' "" [r] others s r := by
  have hlive : ∀ s ∈ e.sessions.filter (fun s => ¬ s.expires < call.now), s ∈ e.sessions :=
    fun s hs => mem_of_mem_filter hs
  obtain ⟨hroom, hkept⟩ := makeRoom_spec (fun s hs => h.finished s (hlive s hs))
    ((length_filter_le _ _).trans h.room)
  simp only [querySource, ne_eq, not_true_eq_false, if_false, ge_iff_le,
    Nat.not_le.mpr hroom, hfiles]
  generalize makeRoom (e.sessions.filter fun s => ¬ s.expires < call.now) = others at hroom hkept
  have hfrozen : ∀ snap ∈ a.files, ∃ f, files a.source.hostDir snap.name = some f ∧
      snapshotOf setup f snap.name = some snap := by
    exact fun snap hsnap => snapshot_frozen hfiles hsnap
  have hfresh : Progress setup files a (.fresh a.source a.query a.files call.walkCut)
      ([].flatMap Result.lines) := by
    refine ⟨⟨hfrozen, .fresh .., nofun⟩, ⟨rfl, rfl, rfl, hcut⟩, [], ?_, rfl, rfl⟩
    rw [nil_append, ahead_idle rfl]
    rfl
  obtain ⟨e', s', r, hanswer, hactive⟩ := answer_active
    ⟨.fresh a.source a.query a.files call.walkCut, "", "", failed "", call.now + continuationTTL⟩
    (s := ⟨.fresh a.source a.query a.files call.walkCut, "", "", failed "",
      call.now + continuationTTL⟩) h.whole h.indexes hfresh
    nofun (fun o ho => ⟨h.finished o (hlive o (hkept o ho)),
      (hcall.fresh o (hlive o (hkept o ho))).2.symm, nofun⟩) hroom
    hcall.limit hcall.named hcall.named
  exact ⟨e', others, s', r, hanswer, hactive⟩

variable {asked : String} {rs : List Result} {others : List Session} {s : Session} {r : Result}

variable (h : Active setup files a e asked rs others s r)
include h

/-- The session of a search is found by its cursors. -/
theorem Active.finds {cursor : String}
    (hcursor : cursor ≠ "") (hknown : cursor = s.current ∨ cursor = s.previous)
    (hcall : call.Serves a.maxResultBytes e cursor) :
    ∃ others', (∀ o ∈ others', o ∈ others) ∧ others'.length ≤ others.length ∧
      e.sessions.filter (fun s => ¬ s.expires < call.now) = others' ++ [s] ∧
      (others' ++ [s]).findIdx? (fun s => decide (cursor = s.current ∨ cursor = s.previous)) =
        some others'.length := by
  have hs : s ∈ e.sessions := by simp [h.sessions]
  have hlive : ¬ s.expires < call.now := hcall.timely s hs hcursor (hknown.imp Eq.symm Eq.symm)
  refine ⟨others.filter fun s => ¬ s.expires < call.now, fun o ho => mem_of_mem_filter ho,
    length_filter_le _ _, ?_, ?_⟩
  · rw [h.sessions, filter_append, filter_singleton]
    simp [hlive]
  · have hnone : (others.filter fun s => ¬ s.expires < call.now).findIdx?
        (fun s => decide (cursor = s.current ∨ cursor = s.previous)) = none := by
      rw [List.findIdx?_eq_none_iff]
      intro o ho
      have ho := mem_of_mem_filter ho
      obtain ⟨hcurrent, hprevious, -⟩ := h.cursors
      have hno : ¬ (cursor = o.current ∨ cursor = o.previous) := by
        rintro (heq | heq)
        · exact hcursor (heq.trans (h.finished o ho))
        · rcases hknown with hk | hk
          · rw [hcurrent] at hk
            exact (h.apart o ho).2 (hk ▸ hcursor) (heq.symm.trans hk)
          · rw [hprevious] at hk
            exact (h.apart o ho).1 (hk ▸ hcursor) (heq.symm.trans hk)
      simp [hno]
    rw [List.findIdx?_append, hnone]
    simp [hknown]

/-- The next page. -/
theorem Active.next (hmore : r.nextCursor ≠ "")
    (hcall : call.Serves a.maxResultBytes e r.nextCursor) :
    ∃ e' others' s' r', querySource setup files call e a.source a.query r.nextCursor =
      some (e', r') ∧
      Active setup files a e' r.nextCursor (rs ++ [r']) others' s' r' := by
  obtain ⟨hcurrent, hprevious, hapart⟩ := h.cursors
  obtain ⟨others', hsub, hlen, hlive, hfind⟩ := h.finds hmore (.inl hcurrent.symm) hcall
  obtain ⟨hsource, hquery, -⟩ := h.progress.asked
  have hne : r.nextCursor ≠ s.previous := by
    rw [hprevious]
    exact hapart hmore
  have hsession : s ∈ e.sessions := by simp [h.sessions]
  simp only [querySource, ne_eq, hmore, not_false_eq_true, if_true, hlive, hfind,
    List.getElem?_concat_length, hsource, hquery,
    not_true_eq_false, or_self, if_false, hne]
  obtain ⟨e', s', r', hanswer, hactive⟩ := answer_active s
    (s := { s with expires := call.now + continuationTTL }) h.whole h.indexes h.progress h.succeeded
    (fun o ho => ⟨h.finished o (hsub o ho),
      ((hcall.fresh o (by simp [h.sessions, hsub o ho])).2).symm,
      (h.apart o (hsub o ho)).2⟩)
    (Nat.lt_of_le_of_lt hlen h.room) hcall.limit hcall.named
    (by rw [← hcurrent]; exact (hcall.fresh s hsession).1)
  exact ⟨e', others', s', r', hanswer, hactive⟩

/-- The last page again. -/
theorem Active.again (hasked : asked ≠ "") (hcall : call.Serves a.maxResultBytes e asked) :
    ∃ e' others' s', querySource setup files call e a.source a.query asked = some (e', r) ∧
      Active setup files a e' asked rs others' s' r := by
  obtain ⟨hcurrent, hprevious, hapart⟩ := h.cursors
  obtain ⟨others', hsub, hlen, hlive, hfind⟩ := h.finds hasked (.inr hprevious.symm) hcall
  obtain ⟨hsource, hquery, -⟩ := h.progress.asked
  simp only [querySource, ne_eq, hasked, not_false_eq_true, if_true, hlive, hfind,
    List.getElem?_concat_length, hsource, hquery,
    not_true_eq_false, or_self, if_false]
  rw [if_pos hprevious.symm]
  refine ⟨⟨e.indexes,
    (others' ++ [s]).set others'.length { s with expires := call.now + continuationTTL }⟩, others',
    { s with expires := call.now + continuationTTL }, by rw [h.last.2], ?_⟩
  constructor
  case whole => exact h.whole
  case indexes => exact h.indexes
  case sessions => simp
  case finished => exact fun o ho => h.finished o (hsub o ho)
  case room => exact Nat.lt_of_le_of_lt hlen h.room
  case cursors => exact h.cursors
  case apart => exact fun o ho => h.apart o (hsub o ho)
  case last => exact h.last
  case progress => exact h.progress
  case succeeded => exact h.succeeded
  case ends => exact h.ends

end Calls

/-! ### Whole searches -/

section Runs
variable {setup : Setup} {files : Files} {a : Asked} {e e' : StreamEngine} {asked : String}
  {rs : List Result}

theorem Search.active (h : Search setup files a e e' asked rs) (hidle : Idle setup files e) :
    ∃ others s r, Active setup files a e' asked rs others s r := by
  induction h with
  | first hcall hfiles hcut heq =>
    obtain ⟨e₁, others, s, r₁, hquery, hactive⟩ := hidle.first hcall hfiles hcut
    rw [heq] at hquery
    cases hquery
    exact ⟨others, s, _, hactive⟩
  | next _ hlast hmore hcall heq ih =>
    obtain ⟨others, s, r₁, hactive⟩ := ih
    obtain rfl := Option.some.inj (hlast.symm.trans hactive.last.1)
    obtain ⟨e₁, others', s', r', hquery, hnext⟩ := hactive.next hmore hcall
    rw [heq] at hquery
    cases hquery
    exact ⟨others', s', _, hnext⟩
  | again _ hasked hcall heq ih =>
    obtain ⟨others, s, r₁, hactive⟩ := ih
    obtain ⟨e₁, others', s', hquery, hagain⟩ := hactive.again hasked hcall
    rw [heq] at hquery
    cases hquery
    exact ⟨others', s', _, hagain⟩

theorem Active.idle {others : List Session} {s : Session} {r : Result}
    (h : Active setup files a e asked rs others s r)
    (hcomplete : r.complete = true) : Idle setup files e where
  whole := h.whole
  indexes := h.indexes
  finished o ho := by
    rw [h.sessions] at ho
    rcases mem_append.mp ho with ho | ho
    · exact h.finished o ho
    · rw [mem_singleton.mp ho, h.cursors.1]
      have hends := h.ends
      rw [hends.1] at hcomplete
      exact hends.2.1.mpr (by simpa using hcomplete)
  room := by
    have := h.room
    rw [h.sessions, length_append, length_singleton]
    omega

theorem Reached.idle (h : Reached setup files e) : Idle setup files e := by
  induction h with
  | new h =>
    exact ⟨h, by simp [IndexesSound, StreamEngine.new], by simp [StreamEngine.new], by
      simp [StreamEngine.new]⟩
  | grow _ hg ih => exact ih.grow hg
  | search _ hs hlast hcomplete ih =>
    obtain ⟨others, s, r', hactive⟩ := hs.active ih
    obtain rfl := Option.some.inj (hlast.symm.trans hactive.last.1)
    exact hactive.idle hcomplete

/-- The flag of the session that was opened last. -/
def StreamEngine.skipped (e : StreamEngine) : Option Bool :=
  e.sessions.getLast?.map fun s => s.skipped

/-- A finished session has emitted everything. -/
theorem Active.complete {others : List Session} {s : Session} {r : Result}
    (h : Active setup files a e asked rs others s r)
    (hcomplete : r.complete = true) :
    rs.flatMap Result.lines = a.expected setup files ∧
      e.skipped = some (a.expectedSkipped setup files) ∧
      r.truncated = (a.walkCut || a.expectedSkipped setup files) := by
  obtain ⟨hends, -, htruncated⟩ := h.ends
  rw [hcomplete] at hends
  have hdone : s.files.length ≤ s.filePos ∧ s.pending = [] := by
    simpa [SearchSession.unfinished] using hends
  obtain ⟨past, hrecords, hlines, hskipped⟩ := h.progress.emitted
  have hahead : ahead setup files s.toSearchSession = [] := by
    rw [ahead, drop_eq_nil_of_le hdone.1]
  rw [hahead, append_nil] at hrecords
  rw [hdone.2, filter_nil, append_nil, ← hrecords, Asked.lines_records] at hlines
  rw [hdone.2, any_nil, Bool.or_false, ← hrecords, Asked.skips_records] at hskipped
  refine ⟨hlines, ?_, by rw [htruncated, hskipped, h.progress.asked.2.2.2]⟩
  rw [StreamEngine.skipped, h.sessions, List.getLast?_concat, Option.map_some, hskipped]

end Runs

/-- What is expected of a search, at any point of it. -/
structure SearchExact (setup : Setup) (files : Files) (a : Asked) (e : StreamEngine)
    (asked : String) (rs : List Result) :
    Prop where
  succeeded : ∀ r ∈ rs, r.status = .succeeded
  /-- The next page is answered. -/
  next : ∀ r call, rs.getLast? = some r → r.nextCursor ≠ "" →
    call.Serves a.maxResultBytes e r.nextCursor →
    ∃ e' r', querySource setup files call e a.source a.query r.nextCursor = some (e', r') ∧
      r'.status = .succeeded
  /-- The previous cursor gives the last page again. -/
  again : ∀ r call, rs.getLast? = some r → asked ≠ "" → call.Serves a.maxResultBytes e asked →
    ∃ e', querySource setup files call e a.source a.query asked = some (e', r)
  complete : ∀ r, rs.getLast? = some r → (r.complete = true ↔ r.nextCursor = "") ∧
    (r.complete = true → rs.flatMap Result.lines = a.expected setup files ∧
      e.skipped = some (a.expectedSkipped setup files) ∧
      r.truncated = (a.walkCut || a.expectedSkipped setup files))
  /-- An engine without any index gives the same. -/
  unindexed : ∀ e₀ asked₀ rs₀ r r₀, Search setup files a .new e₀ asked₀ rs₀ → rs.getLast? = some r →
    rs₀.getLast? = some r₀ →
    r.complete = true → r₀.complete = true →
      rs.flatMap Result.lines = rs₀.flatMap Result.lines ∧ e.skipped = e₀.skipped ∧
        r.truncated = r₀.truncated
  /-- The lines of the parsed records are lines of the file at their offsets, each at most once. -/
  offsets : ∀ snap ∈ a.files, ((a.parsed setup files snap).flatMap LogRecord.lines).Sublist
    (fileLines 0 (parts (textOf files a.source.hostDir snap)))

theorem search_exact (setup : Setup) {files : Files} {before : StreamEngine}
    (hreached : Reached setup files before) (a : Asked) :
    (∀ call, call.Serves a.maxResultBytes before "" →
      snapshot setup files a.source.hostDir call.names = some a.files →
      call.walkCut = a.walkCut → ∃ e r, querySource setup files call before a.source a.query "" =
        some (e, r)) ∧
    ∀ e asked rs, Search setup files a before e asked rs →
      SearchExact setup files a e asked rs := by
  have hidle := hreached.idle
  have hnew : Idle setup files .new := (Reached.new hidle.whole).idle
  constructor
  · intro call hcall hfiles hcut
    obtain ⟨e, others, s, r, hquery, -⟩ := hidle.first hcall hfiles hcut
    exact ⟨e, r, hquery⟩
  · intro e asked rs hs
    obtain ⟨others, s, r, hactive⟩ := hs.active hidle
    have hr : ∀ r', rs.getLast? = some r' → r' = r := fun r' hr' =>
      Option.some.inj (hr'.symm.trans hactive.last.1)
    constructor
    case succeeded => exact hactive.succeeded
    case next =>
      intro r' call hlast hmore hcall
      obtain rfl := hr r' hlast
      obtain ⟨e', others', s', r', hquery, hnext⟩ := hactive.next hmore hcall
      exact ⟨e', r', hquery, hnext.succeeded r' (by simp)⟩
    case again =>
      intro r' call hlast hasked hcall
      obtain rfl := hr r' hlast
      obtain ⟨e', others', s', hquery, -⟩ := hactive.again hasked hcall
      exact ⟨e', hquery⟩
    case complete =>
      intro r' hlast
      obtain rfl := hr r' hlast
      refine ⟨?_, hactive.complete⟩
      rw [hactive.ends.1, hactive.ends.2.1, Bool.not_eq_true']
    case unindexed =>
      intro e₀ asked₀ rs₀ r' r₀ hs₀ hlast hlast₀ hcomplete hcomplete₀
      obtain rfl := hr r' hlast
      obtain ⟨others₀, s₀, r₁, hactive₀⟩ := hs₀.active hnew
      obtain rfl := Option.some.inj (hlast₀.symm.trans hactive₀.last.1)
      obtain ⟨hlines, hskipped, htruncated⟩ := hactive.complete hcomplete
      obtain ⟨hlines₀, hskipped₀, htruncated₀⟩ := hactive₀.complete hcomplete₀
      exact ⟨hlines.trans hlines₀.symm, hskipped.trans hskipped₀.symm,
        htruncated.trans htruncated₀.symm⟩
    case offsets => exact fun snap _ => parse_lines ..

/-- Every line is a record of its own. -/
def stampedSetup : Setup :=
  { plainSetup with format := fun _ _ => ⟨fun _ => some 5, fun _ => false, false⟩ }

/-- The file of `oneLine` has grown by a line. -/
def twoLines : Files :=
  fun dir name => if dir = "/logs" ∧ name = "app.log" then some ⟨1, 1, shortLine ++ shortLine⟩
    else none

def lineCall (token : String) (maxLines : Nat) : Call :=
  ⟨⟨1000, maxLines, 100⟩, 10, token, 0, ["app.log"], false⟩

def askedFor (snap : FileSnapshot) : Asked := ⟨appLogs, firstSecond, [snap], false, 100⟩

def grownSnapshot : FileSnapshot := ⟨"app.log", 1, 4, 1, [97, 10, 97, 10, 97, 10, 97, 10]⟩

def earlySearch : Option (StreamEngine × Result) :=
  querySource stampedSetup oneLine (lineCall "x" 10) .new appLogs firstSecond ""

def latePage : Option (StreamEngine × Result) :=
  earlySearch.bind fun x =>
    querySource stampedSetup twoLines (lineCall "y" 1) x.1 appLogs firstSecond ""

def lastPage : Option (StreamEngine × Result) :=
  latePage.bind fun x =>
    querySource stampedSetup twoLines (lineCall "z" 1) x.1 appLogs firstSecond "y"

/-- What the cases below read of a call. -/
def glance (x : StreamEngine × Result) : List (String × String × Time) × String × Bool × Nat :=
  (x.1.sessions.map fun s => (s.current, s.previous, s.expires), x.2.nextCursor, x.2.complete,
    x.2.lines.length)

theorem serves_of_glance {x : StreamEngine × Result} (token : String) {cursor : String}
    (maxLines : Nat)
    {cursors : List (String × String × Time)} (hx : (glance x).1 = cursors) (htoken : token ≠ "")
    (hfresh : ∀ c ∈ cursors, token ≠ c.1 ∧ token ≠ c.2.1 ∧ ¬ c.2.2 < 0) :
      (lineCall token maxLines).Serves 100 x.1 cursor where
  limit := rfl
  named := htoken
  fresh s hs := by
    have := hfresh (s.current, s.previous, s.expires) (by rw [← hx]; exact mem_map_of_mem hs)
    exact ⟨this.1, this.2.1⟩
  timely s hs _ _ :=
    (hfresh (s.current, s.previous, s.expires) (by rw [← hx]; exact mem_map_of_mem hs)).2.2

theorem snapshot_one {setup : Setup} {files : Files} {dir name : String} {f : File}
    {snap : FileSnapshot}
    (hf : files dir name = some f) (hsnap : snapshotOf setup f name = some snap) :
    snapshot setup files dir [name] = some [snap] := by
  simp [snapshot, listing, recent, recentLogFiles, hf, hsnap]

theorem wholeFiles_oneLine : WholeFiles oneLine := by
  intro dir name f hf
  simp only [oneLine] at hf
  split at hf
  next =>
    cases hf
    exact .inr rfl
  next => cases hf

theorem grows_oneLine : Grows oneLine twoLines where
  grown dir name f hf := by
    simp only [oneLine] at hf
    split at hf
    next h =>
      cases hf
      exact ⟨shortLine, 1, .inr rfl, by simp [twoLines, h]⟩
    next => cases hf
  new dir name f hf hf' := by
    simp only [oneLine, ite_eq_right_iff, reduceCtorEq, imp_false] at hf
    simp [twoLines, hf] at hf'

/-- A search after the file grew, in two pages of a line each, on an engine with an index
of the shorter file. -/
theorem search_exact_grown : ∃ before e rs, Reached stampedSetup twoLines before ∧
    Search stampedSetup twoLines (askedFor grownSnapshot) before e "y" rs ∧
    rs.map (fun r => (r.complete, r.lines.length)) = [(false, 1), (true, 1)] ∧
    SearchExact stampedSetup twoLines (askedFor grownSnapshot) e "y" rs := by
  have hearly : earlySearch.map glance = some ([("", "", 600000000000)], "", true, 1) := by
    decide +kernel
  have hlate : latePage.map glance =
      some ([("", "", 600000000000), ("y", "", 600000000000)], "y", false, 1) := by decide +kernel
  have hlast : lastPage.map glance =
      some ([("", "", 600000000000), ("", "y", 600000000000)], "", true, 1) := by decide +kernel
  obtain ⟨x₁, h₁, hx₁⟩ := Option.map_eq_some_iff.mp hearly
  obtain ⟨x₂, h₂, hx₂⟩ := Option.map_eq_some_iff.mp hlate
  obtain ⟨x₃, h₃, hx₃⟩ := Option.map_eq_some_iff.mp hlast
  rw [latePage, h₁, Option.bind_some] at h₂
  rw [lastPage, latePage, h₁, Option.bind_some, h₂, Option.bind_some] at h₃
  have hnew : (lineCall "x" 10).Serves 100 .new "" :=
    ⟨rfl, by decide, by simp [StreamEngine.new], by simp [StreamEngine.new]⟩
  have hearlySearch : Search stampedSetup oneLine (askedFor ⟨"app.log", 1, 2, 0, [97, 10, 97, 10]⟩)
      .new x₁.1 "" [x₁.2] :=
    .first hnew (snapshot_one rfl rfl) rfl h₁
  have hreached : Reached stampedSetup twoLines x₁.1 :=
    .grow (.search (.new wholeFiles_oneLine) hearlySearch rfl (congrArg (fun g => g.2.2.1) hx₁))
      grows_oneLine
  have hpage : Search stampedSetup twoLines (askedFor grownSnapshot) x₁.1 x₂.1 "" [x₂.2] :=
    .first (serves_of_glance "y" 1 (congrArg Prod.fst hx₁) (by decide) (by decide))
      (snapshot_one rfl rfl) rfl h₂
  have hcursor : x₂.2.nextCursor = "y" := congrArg (fun g => g.2.1) hx₂
  have hpages := hpage.next (r := x₂.2) rfl (hcursor ▸ by decide)
    (serves_of_glance "z" 1 (congrArg Prod.fst hx₂) (by decide) (by decide)) (hcursor ▸ h₃)
  rw [hcursor] at hpages
  refine ⟨x₁.1, x₃.1, [x₂.2] ++ [x₃.2], hreached, hpages, ?_,
    (search_exact stampedSetup hreached _).2 _ _ _ hpages⟩
  have hdone₂ := congrArg (fun g => g.2.2) hx₂
  have hdone₃ := congrArg (fun g => g.2.2) hx₃
  exact congrArg₂ (fun a b => [a, b]) hdone₂ hdone₃

end ControlTower.Logs
