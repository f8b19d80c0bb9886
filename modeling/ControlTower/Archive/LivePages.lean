import ControlTower.Archive.LiveStats

/-! What the cursor of a date covers, and how it moves.

A page is the beginning of what the cursor still wants, up to the first row that is
too large; moved to the end of a page, or to the row of a transfer, the cursor covers
what it covered before and the rows it passed. -/
namespace ControlTower.Archive
open Data List Table

variable {C : Type}

/-! ### What the cursor covers -/

theorem position_id {a b : Record C} (h : a.position = b.position) : a.id = b.id :=
  congrArg (fun p : Position => (ofLex p).2) h

/-- Where the last row that was passed stands. -/
def LiveCursor.after (p : LiveCursor) : Position := toLex (p.created, p.id)

/-- Up to where the scan goes. -/
def LiveCursor.bound (p : LiveCursor) : Position := toLex (p.upperCreated, p.upperID)

variable {p : LiveCursor} {day : Day} {r : Record C}

theorem wants_iff :
    p.wants day r = true ↔ day.has r = true ∧ p.after < r.position ∧ r.position ≤ p.bound := by
  simp only [LiveCursor.wants, LiveCursor.after, LiveCursor.bound, Record.position, Prod.Lex.toLex_lt_toLex,
    Prod.Lex.toLex_le_toLex, Bool.and_eq_true, Bool.or_eq_true, decide_eq_true_eq, beq_iff_eq, and_assoc]
  refine and_congr_right fun _ => and_congr_left fun _ => ?_
  simp [eq_comm]

/-- A build that is not ready covers what it does not still want. -/
theorem covers_iff (hb : 0 ≤ p.upperCreated)
    (hr : p.ready = false) (hd : day.has r = true) : p.covers r = !p.wants day r := by
  rw [Bool.eq_iff_iff, Bool.not_eq_true', ← Bool.not_eq_true, wants_iff]
  simp only [LiveCursor.covers, not_lt.mpr hb, hr, if_false, Bool.false_eq_true, hd, true_and, not_and_or,
    LiveCursor.after, LiveCursor.bound, Record.position, Prod.Lex.toLex_lt_toLex,
    Prod.Lex.toLex_le_toLex, Bool.or_eq_true, Bool.and_eq_true, decide_eq_true_eq, beq_iff_eq]
  omega

/-- Before its bound is known a build covers nothing. -/
theorem covers_unbounded (h : p.upperCreated < 0) (r : Record C) : p.covers r = false := by
  simp [LiveCursor.covers, h]

@[simp] theorem covers_start (v : Nat) (r : Record C) : (LiveCursor.start v).covers r = false :=
  covers_unbounded (Int.negSucc_lt_zero 0) r

/-! ### Pages -/

variable {rows : List (Record C)} {limited : Bool}

/-- The rows counted are none too large, and all of them unless a limit was met. -/
theorem preflight_page {count total n : Nat} (h : preflight rows count total = .page n limited) :
    ∃ read rest, rows = read ++ rest ∧ n = count + read.length ∧ (limited = false → rest = []) ∧
      ∀ r ∈ read, r.size ≤ maxPageBytes := by
  induction rows generalizing count total with
  | nil =>
    cases h
    exact ⟨[], [], rfl, rfl, fun _ => rfl, nofun⟩
  | cons r rest ih =>
    have hstop (hc : n = count) (hl : limited = true) : ∃ read rest', r :: rest = read ++ rest' ∧
        n = count + read.length ∧ (limited = false → rest' = []) ∧ ∀ r ∈ read, r.size ≤ maxPageBytes :=
      ⟨[], r :: rest, rfl, hc, by simp [hl], nofun⟩
    simp only [preflight] at h
    split at h
    · split at h
      · cases h
      · cases h
        exact hstop rfl rfl
    · rename_i hsize
      split at h
      · cases h
        exact hstop rfl rfl
      · obtain ⟨read, rest', rfl, hn, hl, hs⟩ := ih h
        refine ⟨r :: read, rest', rfl, by simp only [length_cons]; omega, hl, ?_⟩
        intro a ha
        rcases mem_cons.mp ha with rfl | ha
        · exact Nat.le_of_not_lt hsize
        · exact hs a ha

theorem preflight_candidate {count total : Nat} (h : preflight rows count total = .candidate r) :
    count = 0 ∧ maxPageBytes < r.size ∧ ∃ rest, rows = r :: rest := by
  induction rows generalizing count total with
  | nil => cases h
  | cons a rest ih =>
    simp only [preflight] at h
    split at h
    · split at h
      · cases h
        exact ⟨‹_›, ‹_›, rest, rfl⟩
      · cases h
    · split at h
      · cases h
      · have := (ih h).1
        omega

theorem readPageBudget_spec {budget : Nat} {rows out : List (Record C)} {first limited : Bool} {total : Nat}
    (h : readPageBudget budget rows first total = some (out, limited)) :
    ∃ rest, rows = out ++ rest ∧ (limited = false → rest = []) := by
  induction rows generalizing first total out with
  | nil =>
    cases h
    exact ⟨[], rfl, fun _ => rfl⟩
  | cons r rows ih =>
    simp only [readPageBudget] at h
    split at h
    · split at h
      · cases h
      · cases h
        exact ⟨r :: rows, rfl, nofun⟩
    · split at h
      · cases h
        exact ⟨r :: rows, rfl, nofun⟩
      · obtain ⟨page, hp, heq⟩ := Option.map_eq_some_iff.mp h
        cases heq
        obtain ⟨rest, rfl, hl⟩ := ih hp
        exact ⟨rest, rfl, hl⟩

theorem preflight_empty (h : preflight rows 0 0 = .page 0 limited) : rows = [] := by
  cases rows with
  | nil => rfl
  | cons r rest =>
    simp only [preflight, if_true, Nat.zero_add] at h
    split at h
    · cases h
    · obtain ⟨read, _, _, hn, _⟩ := preflight_page h
      omega

variable {batch : Nat}

/-- A page is the beginning of its query, of rows that are not too large; a page that is
neither limited nor full is all of it. -/
theorem readArchivePage_rows {rows out : List (Record C)}
    (h : readArchivePage rows batch = .rows out limited) :
    ∃ rest, rows = out ++ rest ∧ (limited = false → out.length < batch → rest = []) ∧
      ∀ r ∈ out, r.size ≤ maxPageBytes := by
  unfold readArchivePage at h
  split at h
  · cases h
  · rename_i hp
    cases h
    refine ⟨rows, rfl, fun _ hb => ?_, nofun⟩
    have htake : batch = 0 ∨ rows = [] := take_eq_nil_iff.mp (preflight_empty hp)
    exact htake.resolve_left (Nat.ne_of_gt hb)
  · rename_i count lim _ hp
    split at h
    · cases h
    · rename_i page hb
      cases h
      obtain ⟨read, unread, htake, hcount, hlim, hsize⟩ := preflight_page hp
      obtain ⟨left, hout, hleft⟩ := readPageBudget_spec hb
      have hread : rows.take count = read := by
        have hle : count ≤ batch := by
          have := congrArg List.length htake
          simp only [length_take, length_append] at this
          omega
        calc rows.take count = (rows.take batch).take count := by rw [take_take, min_eq_left hle]
          _ = read := by rw [htake, hcount, Nat.zero_add, take_left]
      refine ⟨left ++ rows.drop count, ?_, ?_, ?_⟩
      · rw [← append_assoc, ← hout, take_append_drop]
      · intro hl hlt
        rw [Bool.or_eq_false_iff] at hl
        have hlen := congrArg List.length htake
        rw [hleft hl.2, append_nil] at hout
        rw [hlim hl.1, append_nil, length_take] at hlen
        rw [← hout, hread] at hlt
        rw [hleft hl.2, nil_append, drop_eq_nil_iff]
        omega
      · intro r hr
        refine hsize r ?_
        rw [← hread, hout]
        exact mem_append_left _ hr

theorem readArchivePage_candidate
    (h : readArchivePage rows batch = .candidate r) : maxPageBytes < r.size ∧ ∃ rest, rows = r :: rest := by
  unfold readArchivePage at h
  split at h
  · rename_i hp
    cases h
    obtain ⟨-, hsize, rest, htake⟩ := preflight_candidate hp
    refine ⟨hsize, rest ++ rows.drop batch, ?_⟩
    rw [← cons_append, ← htake, take_append_drop]
  · cases h
  · split at h <;> cases h

/-! ### Moving the cursor -/

variable {t : Table (Record.id (C := C))}

/-- What a page adds to what is covered: exactly its rows. -/
theorem advance_covers
    {out rest : List (Record C)} (hb : 0 ≤ p.upperCreated)
    (hr : p.ready = false) (hscan : t.scan Record.position (p.wants day) = out ++ rest)
    (hall : limited = false → out.length < batch → rest = []) {r : Record C} (hm : r ∈ t)
    (hd : day.has r = true) :
    (p.advance out limited batch).covers r = true ↔ p.covers r = true ∨ r ∈ out := by
  have hmem (hc : p.covers r = false) : r ∈ out ++ rest := by
    rw [covers_iff hb hr hd, Bool.not_eq_false'] at hc
    rw [← hscan]
    exact mem_scan.mpr ⟨hm, hc⟩
  cases hready : (p.advance out limited batch).ready with
  | true =>
    have hflags : limited = false ∧ out.length < batch := by
      simpa [LiveCursor.advance] using hready
    have hrest := hall hflags.1 hflags.2
    have hcov : (p.advance out limited batch).covers r = true := by
      unfold LiveCursor.covers
      rw [hready, if_neg (show ¬(p.advance out limited batch).upperCreated < 0 from not_lt.mpr hb), if_pos rfl]
    refine iff_of_true hcov ?_
    cases hc : p.covers r with
    | true => exact .inl rfl
    | false => exact .inr (by simpa [hrest] using hmem hc)
  | false =>
    rw [covers_iff (p := p.advance out limited batch) hb hready hd, covers_iff hb hr hd, Bool.not_eq_true',
      Bool.not_eq_true', ← Bool.not_eq_true, ← Bool.not_eq_true, wants_iff, wants_iff]
    rcases eq_nil_or_concat' out with rfl | ⟨read, last, rfl⟩
    · simp [LiveCursor.advance, LiveCursor.after, LiveCursor.bound]
    · have hafter : (p.advance (read ++ [last]) limited batch).after = last.position := by
        simp [LiveCursor.advance, LiveCursor.after, Record.position]
      have hscan' : t.scan Record.position (p.wants day) = read ++ last :: rest := by simp [hscan]
      have hlast : p.after < last.position := by
        have : last ∈ t.scan Record.position (p.wants day) := by simp [hscan]
        exact (wants_iff.mp (mem_scan.mp this).2).2.1
      have hbound : (p.advance (read ++ [last]) limited batch).bound = p.bound := rfl
      rw [hafter, hbound]
      by_cases hw : p.after < r.position ∧ r.position ≤ p.bound
      · have hr : r ∈ t.scan Record.position (p.wants day) :=
          mem_scan.mpr ⟨hm, wants_iff.mpr ⟨hd, hw⟩⟩
        rw [← mem_read_iff (fun _ _ => position_id) hscan' hr, ← not_lt]
        simp [hd, hw]
      · have hl : ¬(last.position < r.position ∧ r.position ≤ p.bound) :=
          fun h => hw ⟨hlast.trans h.1, h.2⟩
        simp only [hd, true_and, hl, hw, not_false_eq_true, true_or]

/-- The row of a transfer stops the page, so the cursor stays before it. -/
theorem advance_waiting
    {rows rest : List (Record C)} (hb : 0 ≤ p.upperCreated)
    (hr : p.ready = false) (hscan : t.scan Record.position (p.wants day) = rows ++ rest)
    (hall : limited = false → rows.length < batch → rest = [])
    (hsize : ∀ r ∈ rows, r.size ≤ maxPageBytes) {r : Record C} (hm : r ∈ t)
    (hw : p.wants day r = true) (hlarge : maxPageBytes < r.size) :
    (p.advance rows limited batch).ready = false ∧ (p.advance rows limited batch).wants day r = true := by
  have hday := (wants_iff.mp hw).1
  have hout : r ∉ rows := fun hin => absurd (hsize r hin) (Nat.not_le_of_lt hlarge)
  have hcov : (p.advance rows limited batch).covers r = false := by
    have hiff := advance_covers hb hr hscan hall hm hday
    rw [covers_iff hb hr hday, hw] at hiff
    rw [← Bool.not_eq_true, hiff]
    simp [hout]
  have hready : (p.advance rows limited batch).ready = false := by
    have hle : ¬(p.advance rows limited batch).upperCreated < 0 := not_lt.mpr hb
    cases h : (p.advance rows limited batch).ready with
    | false => rfl
    | true => simp [LiveCursor.covers, h, hle] at hcov
  refine ⟨hready, ?_⟩
  rw [covers_iff (p := p.advance rows limited batch) hb hready hday] at hcov
  simpa using hcov

/-- What the end of a transfer adds: exactly its row, if nothing stands before it. -/
theorem finish_covers {a r : Record C}
    (hb : 0 ≤ p.upperCreated) (hready : p.ready = false) (hr : r ∈ t) (hw : p.wants day r = true)
    (hbetween : ∀ r' ∈ t, day.has r' = true → p.after < r'.position → r.position ≤ r'.position)
    (ha : a ∈ t) (hd : day.has a = true) :
    ({p with created := r.created, id := r.id} : LiveCursor).covers a = true ↔
      p.covers a = true ∨ a ∈ [r] := by
  have hlast := (wants_iff.mp hw).2.1
  rw [covers_iff (p := {p with created := r.created, id := r.id}) hb hready hd, covers_iff hb hready hd,
    Bool.not_eq_true', Bool.not_eq_true', ← Bool.not_eq_true, ← Bool.not_eq_true, wants_iff, wants_iff,
    mem_singleton]
  show ¬(_ ∧ r.position < a.position ∧ a.position ≤ p.bound) ↔ _
  by_cases hwa : p.after < a.position ∧ a.position ≤ p.bound
  · have hle := hbetween a ha hd hwa.1
    have heq : a = r ↔ ¬r.position < a.position := by
      constructor
      · rintro rfl
        exact lt_irrefl _
      · intro hlt
        exact eq_of_key ha hr (position_id (le_antisymm (not_lt.mp hlt) hle))
    simp [hd, hwa, heq]
  · have hl : ¬(r.position < a.position ∧ a.position ≤ p.bound) :=
      fun h => hwa ⟨hlast.trans h.1, h.2⟩
    simp only [hd, true_and, hl, hwa, not_false_eq_true, true_or]

end ControlTower.Archive
