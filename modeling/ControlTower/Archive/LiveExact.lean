import ControlTower.Archive.LiveWrites

/-! The live statistics are exact, and when they are not.

What the cursor of a date covers is in its sums, row by row, after every step that a
condition admits: rows lie behind the position where a build begins, a row that is
too large to be read back stays on its date when it is replaced, and a transfer ends
with no row between the cursor and the row it carried. The last is not ensured by
the code: a row written there while the transfer is on its way is passed over. -/
namespace ControlTower.Archive
open Data List Function Table LiveCursor State

variable {C K : Type}

/-! ### Sums -/

section Sums
variable [DecidableEq K] (parseAggregate : Record C → Option (Entries K))

theorem Entries.sum_append (es es' : Entries K) : (es ++ es').sum = es.sum + es'.sum := by
  funext k
  simp [Entries.sum]

theorem Entries.sum_scale (es : Entries K) (c : Int) :
    Entries.sum (es.map fun e => (e.1, c * e.2)) = c • es.sum := by
  funext k
  induction es with
  | nil => simp [Entries.sum]
  | cons e es ih =>
    simp only [Entries.sum, Pi.smul_apply, smul_eq_mul, map_cons] at ih ⊢
    by_cases hk : e.1 = k
    · simp [hk, ih, Int.mul_add]
    · simp [hk, ih]

/-- What a row amounts to. -/
def amount (r : Record C) : K → Int := ((parseAggregate r).map Entries.sum).getD 0

variable {parseAggregate}

theorem delta_spec {signed : List (Int × Record C)} {es : Entries K}
    (h : delta parseAggregate signed = some es) :
    (∀ c ∈ signed, (parseAggregate c.2).isSome = true) ∧
      es.sum = (signed.map fun c => c.1 • amount parseAggregate c.2).sum := by
  induction signed generalizing es with
  | nil =>
    cases h
    exact ⟨nofun, rfl⟩
  | cons c rest ih =>
    obtain ⟨sign, r⟩ := c
    simp only [delta, Option.bind_eq_bind, Option.bind_eq_some_iff, Option.pure_def,
      Option.some.injEq] at h
    obtain ⟨first, hf, later, hl, rfl⟩ := h
    obtain ⟨hall, hsum⟩ := ih hl
    have hr : amount parseAggregate r = first.sum := by simp [amount, hf]
    constructor
    · intro c hc
      rcases mem_cons.mp hc with rfl | hc
      · simp [hf]
      · exact hall c hc
    · rw [Entries.sum_append, Entries.sum_scale, hsum, map_cons, sum_cons, hr]

theorem writeAggregateBatch_spec {s s' : State C K} {version : Nat} {es : Entries K}
    (h : s.writeAggregateBatch version es = some s') :
    s' = {s with sums := Function.update s.sums version (s.sums version + es.sum)} := by
  simp only [writeAggregateBatch] at h
  split at h
  · cases h
    rfl
  · cases h

/-! ### Exactness -/

/-- What of a row is in the sums of a cursor. -/
def LiveCursor.share (parseAggregate : Record C → Option (Entries K)) (day : Day) (p : LiveCursor)
    (r : Record C) : K → Int :=
  if day.has r && p.covers r then amount parseAggregate r else 0

/-- **The sums of the current version are those of the rows that the cursor covers**, and
each of these could be parsed. -/
structure Exact (parseAggregate : Record C → Option (Entries K)) (day : Day) (s : State C K) : Prop where
  parsed : ∀ p, s.live = some p → ∀ r ∈ s.table, day.has r = true → p.covers r = true →
    (parseAggregate r).isSome = true
  sums : ∀ p, s.live = some p → s.sums p.version = s.table.total (p.share parseAggregate day)

variable {day : Day} {s : State C K}

theorem Exact.of_start {v : Nat} (hl : s.live = some (.start v))
    (hs : s.sums v = 0) : Exact parseAggregate day s := by
  constructor
  · intro p hp r _ _ hc
    cases hl.symm.trans hp
    simp at hc
  · intro p hp
    cases hl.symm.trans hp
    rw [total_zero fun r _ => by simp [share]]
    exact hs

theorem Exact.of_none (hl : s.live = none) : Exact parseAggregate day s :=
  ⟨fun p hp => by simp [hl] at hp, fun p hp => by simp [hl] at hp⟩

theorem invalidateLive_exact (h : s.sums s.nextVersion = 0) : Exact parseAggregate day s.invalidateLive := by
  cases hl : s.live with
  | none => exact Exact.of_none (by rw [invalidateLive_none hl, hl])
  | some p =>
    rw [invalidateLive_some hl]
    exact Exact.of_start rfl h

variable (parseAggregate) in
theorem flushLive_cases (changes : List (RawChange C)) (fails : Bool) :
    (s.live = none ∧ s.flushLive parseAggregate day changes fails = s) ∨
    (changes.flatMap (RawChange.signed day) = [] ∧ s.flushLive parseAggregate day changes fails = s) ∨
    s.flushLive parseAggregate day changes fails = s.invalidateLive ∨
    ∃ p es, s.live = some p ∧
      delta parseAggregate ((changes.flatMap (RawChange.signed day)).filter fun c => p.covers c.2) = some es ∧
      s.flushLive parseAggregate day changes fails =
        {s with sums := Function.update s.sums p.version (s.sums p.version + es.sum)} := by
  cases hl : s.live with
  | none => exact .inl ⟨rfl, by simp [flushLive, hl]⟩
  | some p =>
    cases hc : changes.flatMap (RawChange.signed day) with
    | nil => exact .inr (.inl ⟨rfl, by simp [flushLive, hl, hc]⟩)
    | cons c rest =>
      refine .inr (.inr ?_)
      simp only [flushLive, hl, hc]
      cases fails with
      | true => exact .inl rfl
      | false =>
        cases hd : delta parseAggregate ((c :: rest).filter fun c => p.covers c.2) with
        | none => exact .inl rfl
        | some es =>
          cases hw : s.writeAggregateBatch p.version es with
          | none => exact .inl (by simp [hw])
          | some s' => exact .inr ⟨p, es, rfl, hd, by simp [hw, writeAggregateBatch_spec hw, hl]⟩

theorem flushLive_sound (h : Sound day s) (changes : List (RawChange C))
    (fails : Bool) : Sound day (s.flushLive parseAggregate day changes fails) := by
  rcases flushLive_cases parseAggregate changes fails with ⟨-, he⟩ | ⟨-, he⟩ | he | ⟨p, es, hp, -, he⟩ <;>
    rw [he]
  · exact h
  · exact h
  · exact invalidateLive_sound h
  · exact h.addSums hp _

/-- What the cursor covers of a row, wherever it is. -/
def LiveCursor.covered (parseAggregate : Record C → Option (Entries K)) (p : LiveCursor) (r : Record C) :
    K → Int :=
  if p.covers r then amount parseAggregate r else 0

theorem share_eq (day : Day) (p : LiveCursor) :
    p.share parseAggregate day = day.only (p.covered parseAggregate) := by
  funext r
  cases hd : day.has r <;> simp [share, Day.only, covered, hd]

theorem signedSum_covered (p : LiveCursor) (signed : List (Int × Record C)) :
    signedSum (amount parseAggregate) (signed.filter fun c => p.covers c.2) =
      signedSum (p.covered parseAggregate) signed := by
  induction signed with
  | nil => rfl
  | cons c rest ih =>
    have hcons (w : Record C → K → Int) (cs : List (Int × Record C)) :
        signedSum w (c :: cs) = c.1 • w c.2 + signedSum w cs := rfl
    cases hc : p.covers c.2 with
    | false =>
      have hzero : p.covered parseAggregate c.2 = 0 := by simp only [covered, hc]; rfl
      rw [filter_cons_of_neg (by simp [hc]), hcons, hzero, smul_zero, zero_add, ih]
    | true =>
      have hsame : p.covered parseAggregate c.2 = amount parseAggregate c.2 := if_pos hc
      rw [filter_cons_of_pos (by simpa using hc), hcons, hcons, hsame, ih]

/-- **A raw transaction keeps the sums exact.** -/
theorem flushLive_exact {s₀ s : State C K} {changes : List (RawChange C)} {fails : Bool}
    (h₀ : Exact parseAggregate day s₀) (hs₀ : Sound day s₀) (hs : Sound day s)
    (hf : Followed day s₀ s changes) :
    Exact parseAggregate day (s.flushLive parseAggregate day changes fails) := by
  rcases flushLive_cases parseAggregate changes fails with
    ⟨hn, he⟩ | ⟨hc, he⟩ | he | ⟨p, es, hp, hd, he⟩ <;> rw [he]
  · exact Exact.of_none hn
  · rcases hf.accounted with hn | ⟨v, hv, hle⟩ | ⟨hl, ht⟩
    · exact Exact.of_none hn
    · exact Exact.of_start hv (by rw [hf.sums]; exact hs₀.fresh v hle)
    · have hin (a : Record C) (ha : a ∈ s.table) (hda : day.has a = true) : a ∈ s₀.table := by
        have := hf.entered a ha hda
        rw [hc] at this
        exact this.resolve_right (by simp)
      constructor
      · intro p hp a ha hda hca
        exact h₀.parsed p (hl ▸ hp) a (hin a ha hda) hda hca
      · intro p hp
        rw [hf.sums, h₀.sums p (hl ▸ hp), share_eq, ht, hc]
        simp [signedSum]
  · exact invalidateLive_exact (hs.fresh _ (le_refl _))
  · obtain ⟨hparsed, hsum⟩ := delta_spec hd
    have hes : es.sum = signedSum (p.covered parseAggregate) (changes.flatMap (RawChange.signed day)) :=
      hsum.trans (signedSum_covered p _)
    rcases hf.accounted with hn | ⟨v, hv, hle⟩ | ⟨hl, ht⟩
    · simp [hn] at hp
    · cases hv.symm.trans hp
      have hzero : es.sum = 0 := by
        rw [hsum, filter_eq_nil_iff.mpr fun c _ => by simp]
        rfl
      refine Exact.of_start hv ?_
      show Function.update s.sums v (s.sums v + es.sum) v = 0
      rw [update_self, hzero, add_zero, hf.sums]
      exact hs₀.fresh v hle
    · constructor
      · intro q hq a ha hda hca
        cases hp.symm.trans hq
        rcases hf.entered a ha hda with ha | ha
        · exact h₀.parsed p (hl ▸ hp) a ha hda hca
        · exact hparsed (1, a) (mem_filter.mpr ⟨ha, hca⟩)
      · intro q hq
        cases hp.symm.trans hq
        show Function.update s.sums p.version (s.sums p.version + es.sum) p.version = _
        rw [update_self, hf.sums, h₀.sums p (hl ▸ hp), hes, share_eq, ← ht]

/-! ### The build -/

omit [DecidableEq K] in
theorem ensureLive_sound (h : Sound day s) : Sound day s.ensureLive := by
  unfold ensureLive
  cases s.live with
  | some p => exact h
  | none => exact h.restart

theorem ensureLive_exact (hs : Sound day s) (h : Exact parseAggregate day s) :
    Exact parseAggregate day s.ensureLive := by
  unfold ensureLive
  cases s.live with
  | some p => exact h
  | none => exact Exact.of_start rfl (hs.fresh _ (le_refl _))

omit [DecidableEq K] in
/-- The bound changes nothing of what is covered: the build has not begun, or has one. -/
theorem bounded_spec {cursor : LiveCursor} (h : Sound day s)
    (hl : s.live = some cursor) (hr : cursor.ready = false) :
    (cursor.bounded day s.table).version = cursor.version ∧
      (cursor.bounded day s.table).ready = false ∧
      0 ≤ (cursor.bounded day s.table).upperCreated ∧
      (0 ≤ cursor.upperCreated → cursor.bounded day s.table = cursor) ∧
      ∀ r ∈ s.table, day.has r = true → (cursor.bounded day s.table).covers r = cursor.covers r := by
  unfold bounded
  by_cases hb : cursor.upperCreated < 0
  · have hstart := h.unbounded cursor hl hb
    rw [if_pos hb]
    cases hlast : (s.table.scan Record.position day.has).getLast? with
    | none =>
      have hnone : s.table.scan Record.position day.has = [] := List.getLast?_eq_none_iff.mp hlast
      refine ⟨rfl, hr, le_refl _, fun hn => absurd hb (not_lt.mpr hn), ?_⟩
      intro r hm hd
      have : r ∈ s.table.scan Record.position day.has := mem_scan.mpr ⟨hm, hd⟩
      simp [hnone] at this
    | some a =>
      have ha := mem_scan.mp (mem_of_getLast? hlast)
      have hcreated : 0 ≤ a.created := by
        have := h.placed a ha.1 ha.2
        simp only [origin, Record.position, Prod.Lex.toLex_lt_toLex] at this
        omega
      refine ⟨rfl, hr, hcreated, fun hn => absurd hb (not_lt.mpr hn), ?_⟩
      intro r hm hd
      have hle := le_last (fun _ _ => position_id) hlast (mem_scan.mpr ⟨hm, hd⟩)
      have hafter : cursor.after = origin := by rw [hstart]; rfl
      show ({cursor with upperCreated := a.created, upperID := a.id} : LiveCursor).covers r = _
      rw [covers_unbounded hb, covers_iff (p := {cursor with upperCreated := a.created, upperID := a.id})
        hcreated hr hd, Bool.not_eq_false', wants_iff]
      exact ⟨hd, lt_of_eq_of_lt hafter (h.placed r hm hd), hle⟩
  · rw [if_neg hb]
    exact ⟨rfl, hr, not_lt.mp hb, fun _ => rfl, fun _ _ _ => rfl⟩

variable {cursor p : LiveCursor}

theorem Exact.moved {l : Option (LargeRecord C)}
    (h : Exact parseAggregate day s) (hl : s.live = some cursor) (hv : p.version = cursor.version)
    (hc : ∀ r ∈ s.table, day.has r = true → p.covers r = cursor.covers r) :
    Exact parseAggregate day {s with live := some p, largeLive := l} where
  parsed := by
    rintro _ ⟨⟩ r hm hd hcov
    exact h.parsed cursor hl r hm hd (hc r hm hd ▸ hcov)
  sums := by
    rintro _ ⟨⟩
    show s.sums p.version = _
    rw [hv, h.sums cursor hl]
    refine total_congr fun r hm => ?_
    unfold share
    cases hd : day.has r with
    | false => rfl
    | true => rw [hc r hm hd]

/-- A cursor moves over rows that are added to its sums. -/
theorem Exact.added [DecidableEq C]
    {l : Option (LargeRecord C)} {x : K → Int} (h : Exact parseAggregate day s) (rows : List (Record C))
    (hl : s.live = some cursor) (hv : p.version = cursor.version)
    (hc : ∀ r ∈ s.table, day.has r = true →
      (p.covers r = true ↔ cursor.covers r = true ∨ r ∈ rows))
    (hnew : ∀ r ∈ rows, day.has r = true ∧ cursor.covers r = false)
    (hparsed : ∀ r ∈ rows, (parseAggregate r).isSome = true)
    (hx : x = s.table.total fun r => if r ∈ rows then amount parseAggregate r else 0) :
    Exact parseAggregate day {s with
      live := some p, largeLive := l
      sums := Function.update s.sums cursor.version (s.sums cursor.version + x)} where
  parsed := by
    rintro _ ⟨⟩ r hm hd hcov
    rcases (hc r hm hd).mp hcov with hold | hin
    · exact h.parsed cursor hl r hm hd hold
    · exact hparsed r hin
  sums := by
    rintro _ ⟨⟩
    show Function.update s.sums cursor.version _ p.version = _
    rw [hv, update_self, h.sums cursor hl, hx, ← total_add]
    refine total_congr fun r hm => ?_
    unfold share
    cases hd : day.has r with
    | false =>
      have hout : r ∉ rows := fun hin => Bool.false_ne_true (hd.symm.trans (hnew r hin).1)
      simp [hout]
    | true =>
      have hiff := hc r hm hd
      by_cases hin : r ∈ rows
      · have hcov : p.covers r = true := hiff.mpr (.inr hin)
        simp [hin, hcov, (hnew r hin).2]
      · have hcov : p.covers r = cursor.covers r := by
          rw [Bool.eq_iff_iff, hiff]
          simp [hin]
        simp [hin, hcov]

variable (parseAggregate) in
/-- What a step of the build can be. -/
theorem addPage_cases {p : LiveCursor} (batch : Nat) (start : Bool) :
    s.addPage parseAggregate day p batch start = s ∨
    (∃ r rest, s.table.scan Record.position (p.wants day) = r :: rest ∧ maxPageBytes < r.size ∧
      ∃ l, (l = s.largeLive ∨ l = some ⟨r, p.version⟩) ∧
        s.addPage parseAggregate day p batch start = {s with live := some p, largeLive := l}) ∨
    ∃ rows rest limited es, s.table.scan Record.position (p.wants day) = rows ++ rest ∧
      (limited = false → rows.length < batch → rest = []) ∧ (∀ r ∈ rows, r.size ≤ maxPageBytes) ∧
      delta parseAggregate (rows.map fun r => (1, r)) = some es ∧
      s.addPage parseAggregate day p batch start = {s with
        live := some (p.advance rows limited batch)
        sums := Function.update s.sums p.version (s.sums p.version + es.sum)} := by
  unfold addPage
  split
  · exact .inl rfl
  · rename_i r hp
    obtain ⟨hsize, rest, hscan⟩ := readArchivePage_candidate hp
    refine .inr (.inl ⟨r, rest, hscan, hsize, _, ?_, rfl⟩)
    split
    · exact .inr rfl
    · exact .inl rfl
  · rename_i rows limited hp
    obtain ⟨rest, hscan, hall, hsize⟩ := readArchivePage_rows hp
    split
    · exact .inl rfl
    · rename_i added hadd
      obtain ⟨es, hd, hw⟩ := Option.bind_eq_some_iff.mp hadd
      refine .inr (.inr ⟨rows, rest, limited, es, hscan, hall, hsize, hd, ?_⟩)
      rw [writeAggregateBatch_spec hw]

theorem addPage_exact [DecidableEq C] {batch : Nat}
    {start : Bool} (h : Exact parseAggregate day s) (hl : s.live = some cursor)
    (hv : p.version = cursor.version) (hr : p.ready = false) (hb : 0 ≤ p.upperCreated)
    (hc : ∀ r ∈ s.table, day.has r = true → p.covers r = cursor.covers r) :
    Exact parseAggregate day (s.addPage parseAggregate day p batch start) := by
  rcases addPage_cases parseAggregate batch start with he | ⟨r, rest, -, -, l, -, he⟩ |
    ⟨rows, rest, limited, es, hscan, hall, -, hd, he⟩ <;> rw [he]
  · exact h
  · exact h.moved hl hv hc
  · obtain ⟨hparsed, hsum⟩ := delta_spec hd
    have hrows (r : Record C) (hin : r ∈ rows) : r ∈ s.table ∧ p.wants day r = true :=
      mem_scan.mp (hscan ▸ mem_append_left _ hin)
    rw [hv]
    refine h.added rows hl hv ?_ ?_ ?_ ?_
    · intro r hm hday
      rw [advance_covers hb hr hscan hall hm hday, hc r hm hday]
    · intro r hin
      have hday := (wants_iff.mp (hrows r hin).2).1
      refine ⟨hday, ?_⟩
      rw [← hc r (hrows r hin).1 hday, covers_iff hb hr hday, (hrows r hin).2]
      rfl
    · intro r hin
      exact hparsed (1, r) (mem_map_of_mem hin)
    · rw [← sum_read hscan, hsum]
      simp [comp_def]

theorem addPage_sound {batch : Nat} {start : Bool}
    (h : Sound day s) (hl : s.live = some cursor) (hv : p.version = cursor.version)
    (hr : p.ready = false) (hb : 0 ≤ p.upperCreated)
    (hsame : 0 ≤ cursor.upperCreated → p = cursor) :
    Sound day (s.addPage parseAggregate day p batch start) := by
  have hversion : p.version < s.nextVersion := hv ▸ h.version cursor hl
  rcases addPage_cases parseAggregate batch start with he | ⟨r, rest, hscan, hlarge, l, hlargeLive, he⟩ |
    ⟨rows, rest, limited, es, hscan, hall, hsize, -, he⟩ <;> rw [he]
  · exact h
  · have hcand := mem_scan.mp (hscan ▸ mem_cons_self)
    refine ⟨h.placed, h.fresh, ?_, ?_, ?_, ?_⟩
    · rintro _ ⟨⟩
      exact hversion
    · rintro l' hl'
      rcases hlargeLive with rfl | rfl
      · exact h.transfer l' hl'
      · cases hl'
        exact hversion
    · rintro _ ⟨⟩ hneg
      exact absurd hneg (not_lt.mpr hb)
    · rintro _ l' ⟨⟩ hl' hvv
      rcases hlargeLive with rfl | rfl
      · obtain ⟨-, hbc, hrow⟩ := h.waiting cursor l' hl hl' (hvv.trans hv)
        rw [hsame hbc]
        exact ⟨hsame hbc ▸ hr, hbc, hrow⟩
      · cases hl'
        exact ⟨hr, hb, hcand.1, hcand.2, hlarge⟩
  · have hadd := h.addSums hl (s.sums p.version + es.sum)
    rw [← hv] at hadd
    refine ⟨h.placed, hadd.fresh, ?_, h.transfer, ?_, ?_⟩
    · rintro _ ⟨⟩
      exact hversion
    · rintro _ ⟨⟩ hneg
      exact absurd hneg (not_lt.mpr hb)
    · rintro _ l' ⟨⟩ hl' hvv
      obtain ⟨-, hbc, hm, hw, hlarge⟩ := h.waiting cursor l' hl hl' (hvv.trans hv)
      rw [← hsame hbc] at hw
      obtain ⟨hready, hwants⟩ := advance_waiting hb hr hscan hall hsize hm hw hlarge
      exact ⟨hready, hb, hm, hwants, hlarge⟩

section Steps
variable [DecidableEq C]

structure Inv (parseAggregate : Record C → Option (Entries K)) (day : Day) (s : State C K) : Prop where
  sound : Sound day s
  exact : Exact parseAggregate day s

variable {day : Day} {s : State C K}

variable (h : Inv parseAggregate day s)
include h

theorem buildLive_inv (batch : Nat)
    (start : Bool) : Inv parseAggregate day (s.buildLive parseAggregate day batch start) := by
  have hs := ensureLive_sound h.sound
  have he := ensureLive_exact h.sound h.exact
  have ht : s.ensureLive.table = s.table := by
    unfold ensureLive
    cases s.live <;> rfl
  unfold buildLive
  cases hl : s.ensureLive.live with
  | none => exact ⟨hs, he⟩
  | some cursor =>
    show Inv parseAggregate day (if cursor.ready = true then _ else _)
    cases hr : cursor.ready with
    | true => exact ⟨hs, he⟩
    | false =>
      obtain ⟨hv, hready, hb, hsame, hc⟩ := bounded_spec hs hl hr
      rw [ht] at hv hready hb hsame hc
      exact ⟨addPage_sound hs hl hv hready hb hsame, addPage_exact he hl hv hready hb (ht ▸ hc)⟩

/-- The condition on the end of a transfer: no row of the date has come between the
cursor and the row that was carried. -/
def State.AdmitsFinish (day : Day) (s : State C K) : Prop :=
  ∀ p l, s.live = some p → s.largeLive = some l → l.version = p.version →
    ∀ r ∈ s.table, day.has r = true → p.after < r.position → l.record.position ≤ r.position

theorem finishLarge_inv (ha : s.AdmitsFinish day) :
    Inv parseAggregate day (s.finishLarge parseAggregate) := by
  unfold finishLarge
  split
  · rename_i p l hp hl
    split
    · exact ⟨⟨h.sound.placed, h.sound.fresh, h.sound.version, nofun, h.sound.unbounded, nofun⟩,
        h.exact.parsed, h.exact.sums⟩
    · rename_i hv
      rw [not_not] at hv
      split
      · exact h
      · rename_i s' hadd
        obtain ⟨es, hes, hw⟩ := Option.bind_eq_some_iff.mp hadd
        obtain ⟨hready, hb, hr, hwants, hsize⟩ := h.sound.waiting p l hp hl hv
        rw [writeAggregateBatch_spec hw]
        have hsums := h.sound.addSums hp (s.sums p.version + es.sum)
        constructor
        · refine ⟨h.sound.placed, hsums.fresh, ?_, nofun, ?_, nofun⟩
          · rintro _ ⟨⟩
            exact h.sound.version p hp
          · rintro _ ⟨⟩ hneg
            exact absurd hneg (not_lt.mpr hb)
        · refine h.exact.added [l.record] hp rfl ?_ ?_ ?_ ?_
          · exact fun a hmem hd => finish_covers hb hready hr hwants (ha p l hp hl hv) hmem hd
          · intro a ha
            rw [mem_singleton.mp ha]
            have hd := (wants_iff.mp hwants).1
            refine ⟨hd, ?_⟩
            rw [covers_iff hb hready hd, hwants]
            rfl
          · intro a ha
            rw [mem_singleton.mp ha, hes]
            rfl
          · have hamount : amount parseAggregate l.record = es.sum := by simp [amount, hes]
            simp only [mem_singleton]
            rw [total_single hr, hamount]
  · exact h

/-- The condition on a collected large row: it does not take a row away from the date. -/
def State.AdmitsPublish (day : Day) (s : State C K) (r : Record C) : Prop :=
  (day.has r = true → origin < r.position) ∧
    ∀ old, s.table.find r.id = some old → day.has old = true → day.has r = true

omit h in
omit [DecidableEq K] [DecidableEq C] in
/-- A row of the date replaced by a row of the date, which begins anew. -/
theorem put_restarted {r : Record C} (h : Sound day s) (hr : day.has r = true → origin < r.position) :
    Sound day ({s with table := s.table.put r} : State C K).invalidateLive := by
  have hplaced : ∀ a ∈ s.table.put r, day.has a = true → origin < a.position := by
    intro a ha hd
    rcases mem_put.mp ha with rfl | ⟨ha, -⟩
    · exact hr hd
    · exact h.placed a ha hd
  have hdropped := h.restart
  cases hl : s.live with
  | none =>
    exact ⟨hplaced, h.fresh, nofun, h.transfer, nofun, nofun⟩
  | some p =>
    refine ⟨hplaced, hdropped.fresh, hdropped.version, hdropped.transfer, hdropped.unbounded, ?_⟩
    rintro _ l ⟨⟩ hll hv
    have := h.transfer l hll
    simp only [LiveCursor.start] at hv
    omega

theorem publish_inv {r : Record C}
    (hr : s.AdmitsPublish day r) : Inv parseAggregate day (s.publish day r) := by
  unfold publish
  split
  · exact h
  · show Inv parseAggregate day (if day.has r = true then _ else _)
    split
    · exact ⟨put_restarted h.sound hr.1, invalidateLive_exact (h.sound.fresh _ (le_refl _))⟩
    · rename_i hd
      have hold (a : Record C) (ha : a ∈ s.table) (hda : day.has a = true) : a.id ≠ r.id :=
        fun hid => hd (hr.2 a (find_eq_some.mpr ⟨ha, hid⟩) hda)
      have hin (a : Record C) (ha : a ∈ s.table.put r) (hda : day.has a = true) : a ∈ s.table := by
        rcases mem_put.mp ha with rfl | ⟨ha, -⟩
        · exact absurd hda hd
        · exact ha
      constructor
      · refine ⟨fun a ha hda => h.sound.placed a (hin a ha hda) hda, h.sound.fresh, h.sound.version,
          h.sound.transfer, h.sound.unbounded, ?_⟩
        intro p l hp hl hv
        obtain ⟨hready, hb, ha, hw, hsize⟩ := h.sound.waiting p l hp hl hv
        have hda := (wants_iff.mp hw).1
        exact ⟨hready, hb, mem_put.mpr (.inr ⟨ha, hold l.record ha hda⟩), hw, hsize⟩
      · refine ⟨fun p hp a ha hda => h.exact.parsed p hp a (hin a ha hda) hda, fun p hp => ?_⟩
        show s.sums p.version = (s.table.put r).total _
        have hr0 : p.share parseAggregate day r = 0 := by simp [share, hd]
        have hold0 : (s.table.find r.id).elim 0 (p.share parseAggregate day) = 0 := by
          cases hf : s.table.find r.id with
          | none => rfl
          | some a =>
            obtain ⟨ha, hid⟩ := find_eq_some.mp hf
            have hda : ¬day.has a = true := fun hda => hold a ha hda hid
            simp [share, hda]
        rw [total_put, hold0, hr0, sub_zero, add_zero]
        exact h.exact.sums p hp

/-! ### Runs -/

/-- The condition on a step. -/
def State.Admits (day : Day) (s : State C K) : Action C → Prop
  | .write rows _ => s.AdmitsRows day rows
  | .publish r => s.AdmitsPublish day r
  | .finish => s.AdmitsFinish day
  | .invalidate | .build _ _ | .abandon => True

def State.AdmitsRun (parseAggregate : Record C → Option (Entries K)) (day : Day) (s : State C K) :
    List (Action C) → Prop
  | [] => True
  | a :: rest => s.Admits day a ∧
      (s.step parseAggregate day a).AdmitsRun parseAggregate day rest

theorem step_inv {a : Action C}
    (ha : s.Admits day a) : Inv parseAggregate day (s.step parseAggregate day a) := by
  cases a with
  | write rows fails =>
    have hs := writeRows_sound h.sound ha
    exact ⟨flushLive_sound hs _ _, flushLive_exact h.exact h.sound hs (writeRows_followed ha)⟩
  | publish r => exact publish_inv h ha
  | invalidate =>
    exact ⟨invalidateLive_sound h.sound, invalidateLive_exact (h.sound.fresh _ (le_refl _))⟩
  | build batch start => exact buildLive_inv h batch start
  | finish => exact finishLarge_inv h ha
  | abandon =>
    exact ⟨⟨h.sound.placed, h.sound.fresh, h.sound.version, nofun, h.sound.unbounded, nofun⟩,
      h.exact.parsed, h.exact.sums⟩

theorem run_inv {actions : List (Action C)} (ha : s.AdmitsRun parseAggregate day actions) :
    Inv parseAggregate day (s.run parseAggregate day actions) := by
  induction actions generalizing s with
  | nil => exact h
  | cons a rest ih => exact ih (step_inv h ha.1) ha.2

omit h

end Steps

end Sums

/-! ### A row that is passed over -/

end ControlTower.Archive
