import Mathlib.Algebra.Ring.Nat
import ControlTower.Logs.Parser

/-! The time index of a log file.

Blocks of at least one mebibyte end at record boundaries and carry the earliest and
the latest time of their records. A query builds the index of a file while it reads
it; a later one skips the blocks that its interval does not meet, rereads the last
block when the file has grown, and extends the index from there. -/
namespace ControlTower.Logs
open Go Data List

structure TimeBlock where
  start : Nat
  stop : Nat
  min : Time
  max : Time
  unknown : Bool
  deriving DecidableEq

def timeBlockBytes : Nat := 1048576

def maxTimeIndexBlocks : Nat := 8192

/-- `timeBlock{start: start, end: stop}`. -/
def TimeBlock.range (start stop : Nat) : TimeBlock := ⟨start, stop, Time.zero, Time.zero, false⟩

/-- What a record adds to its block. -/
def TimeBlock.absorb (v : TimeBlock) (r : LogRecord) : TimeBlock where
  start := v.start
  stop := r.stop
  unknown := v.unknown || r.stamp.isZero || r.oversized
  min := if !r.stamp.isZero && (v.min.isZero || decide (r.stamp < v.min)) then r.stamp else v.min
  max := if !r.stamp.isZero && (v.max.isZero || decide (v.max < r.stamp)) then r.stamp else v.max

structure IndexBuild where
  blocks : List TimeBlock
  next : Nat
  disabled : Bool

namespace IndexBuild

def observe (b : IndexBuild) (r : LogRecord) : IndexBuild :=
  if b.disabled ∨ r.start < b.next then b
  else match b.blocks.getLast? with
    | some v =>
      if v.stop - v.start ≥ timeBlockBytes then
        if b.blocks.length ≥ maxTimeIndexBlocks then { b with disabled := true }
        else { b with blocks := b.blocks ++ [(TimeBlock.range r.start 0).absorb r] }
      else { b with blocks := b.blocks.dropLast ++ [v.absorb r] }
    | none => { b with blocks := b.blocks ++ [(TimeBlock.range r.start 0).absorb r] }

/-- The records of a range, in the order in which they are emitted. -/
def observeAll (b : IndexBuild) (rs : List LogRecord) : IndexBuild := rs.foldl observe b

theorem observeAll_append (b : IndexBuild) (rs rs' : List LogRecord) :
    b.observeAll (rs ++ rs') = (b.observeAll rs).observeAll rs' := foldl_append

end IndexBuild

/-- The blocks lie end to end. -/
abbrev BlocksLie (a : Nat) (bs : List TimeBlock) (b : Nat) : Prop := Tiles TimeBlock.start TimeBlock.stop a bs b

namespace IndexBuild

@[simp] theorem observe_next (b : IndexBuild) (r : LogRecord) : (b.observe r).next = b.next := by
  simp only [observe]
  repeat' split
  all_goals rfl

variable {b : IndexBuild} {r : LogRecord}

theorem observe_of_lt (h : r.start < b.next) : b.observe r = b := by
  simp [observe, h]

theorem observeAll_of_lt {rs : List LogRecord} (h : ∀ r ∈ rs, r.start < b.next) :
    b.observeAll rs = b := by
  induction rs with
  | nil => rfl
  | cons r rs ih =>
    simp only [observeAll, foldl_cons, observe_of_lt (h r mem_cons_self)]
    exact ih fun r' hr' => h r' (mem_cons_of_mem _ hr')

theorem observe_disabled (h : b.disabled = true) (r : LogRecord) : b.observe r = b := by
  simp [observe, h]

/-- The record joins the last block, or a block of its own. -/
theorem observe_cases (hnext : b.next ≤ r.start)
    (henabled : (b.observe r).disabled = false) :
    (∃ bs v, b.blocks = bs ++ [v] ∧ (b.observe r).blocks = bs ++ [v.absorb r]) ∨
      (b.observe r).blocks = b.blocks ++ [(TimeBlock.range r.start 0).absorb r] := by
  have hb : b.disabled = false := by
    cases hd : b.disabled with
    | false => rfl
    | true => rw [observe_disabled hd, hd] at henabled; cases henabled
  have hcond : ¬ (b.disabled = true ∨ r.start < b.next) := by
    simp only [hb, Bool.false_eq_true, false_or]
    omega
  simp only [observe, if_neg hcond] at henabled ⊢
  cases hl : b.blocks.getLast? with
  | none => exact .inr rfl
  | some v =>
    simp only [hl] at henabled ⊢
    by_cases hfull : v.stop - v.start ≥ timeBlockBytes
    · by_cases hmany : b.blocks.length ≥ maxTimeIndexBlocks
      · simp [hfull, hmany] at henabled
      · exact .inr (by simp [hfull, hmany])
    · obtain ⟨bs, hbs⟩ := List.getLast?_eq_some_iff.mp hl
      exact .inl ⟨bs, v, hbs, by simp [hfull, hbs]⟩

/-- The blocks reach as far as the records they were built from. -/
theorem observe_lie {k : Nat} (hb : b.disabled = false → BlocksLie 0 b.blocks k)
    (hnext : b.next ≤ k) (hr : r.start = k) (hlt : r.start < r.stop) :
    (b.observe r).disabled = false → BlocksLie 0 (b.observe r).blocks r.stop := by
  intro henabled
  have hold : BlocksLie 0 b.blocks k := by
    apply hb
    cases hd : b.disabled with
    | false => rfl
    | true => rw [observe_disabled hd, hd] at henabled; cases henabled
  rcases observe_cases (hr ▸ hnext) henabled with ⟨bs, v, hbs, heq⟩ | heq
  · rw [hbs] at hold
    rw [heq]
    obtain ⟨m, hbefore, hlast⟩ := Tiles.split hold
    obtain ⟨hlo, hlv, hk⟩ := hlast
    refine hbefore.append (.single hlo ?_ rfl)
    have hk : v.stop = k := hk
    show v.start < r.stop
    omega
  · rw [heq]
    exact hold.append (.single hr hlt rfl)

theorem observeAll_lie {rs : List LogRecord} {k n : Nat}
    (hb : b.disabled = false → BlocksLie 0 b.blocks k) (hnext : b.next ≤ k) (hrs : RecordParser.Lie k rs n) :
    (b.observeAll rs).disabled = false → BlocksLie 0 (b.observeAll rs).blocks n := by
  induction rs generalizing b k with
  | nil => cases hrs; exact hb
  | cons r rs ih =>
    have hlt := hrs.2.1
    refine ih (observe_lie hb hnext hrs.1 hlt) ?_ hrs.2.2
    have := hrs.1
    rw [observe_next]
    omega

@[simp] theorem observeAll_next (b : IndexBuild) (rs : List LogRecord) : (b.observeAll rs).next = b.next := by
  induction rs generalizing b with
  | nil => rfl
  | cons r rs ih => exact (ih (b.observe r)).trans (observe_next b r)

end IndexBuild

/-! ### Files and their snapshots -/

structure File where
  inode : Nat
  modTime : Time
  content : Bytes

structure FileSnapshot where
  name : String
  inode : Nat
  size : Nat
  modTime : Time
  signature : Bytes

variable (digest : Bytes → Bytes)

/-- The hash of the first and of the last 128 bytes below `size`; `none` when the file is shorter. -/
def snapshotSignature (f : File) (size : Nat) : Option Bytes :=
  if size ≤ f.content.length then
    some (digest (f.content.take (min 128 size) ++ (f.content.drop (size - 128)).take (min 128 size)))
  else none

def snapshotMatches (f : File) (s : FileSnapshot) : Bool :=
  f.inode = s.inode && decide (s.size ≤ f.content.length) && (decide (f.content.length ≠ s.size) || decide (f.modTime = s.modTime)) &&
    decide (snapshotSignature digest f s.size = some s.signature)

/-- `timeIndexKey`, whose parts the source joins with zero bytes. -/
structure IndexKey where
  dir : String
  name : String
  kind : String
  logFormat : String
  loc : String
  deriving DecidableEq

structure FileTimeIndex where
  key : IndexKey
  snap : FileSnapshot
  blocks : List TimeBlock

/-- The part of a query that the index reads. -/
structure Interval where
  fromTime : Time
  toTime : Time
  deriving DecidableEq

def overlaps (b : TimeBlock) (q : Interval) : Bool :=
  b.unknown || (!decide (b.max < q.fromTime) && decide (b.min < q.toTime))

variable (indexes : List FileTimeIndex) (key : IndexKey)

/-- The last entry of the key, and the list without it. -/
def takeIndex : Option FileTimeIndex × List FileTimeIndex :=
  (indexes.reverse.find? fun i => i.key = key, (indexes.reverse.eraseP fun i => i.key = key).reverse)

/-- The search for a cached index: one that does not match the file any more is dropped. -/
def cachedIndex (f : File) :
    Option FileTimeIndex × List FileTimeIndex :=
  match takeIndex indexes key with
  | (none, indexes) => (none, indexes)
  | (some item, indexes) => if snapshotMatches digest f item.snap then (some item, indexes ++ [item]) else (none, indexes)

/-- The blocks that a longer file keeps: the last may have ended within a line. -/
def FileTimeIndex.kept (c : FileTimeIndex) : List TimeBlock := c.blocks.dropLast

def FileTimeIndex.keptStop (c : FileTimeIndex) : Nat := c.kept.getLast?.elim 0 TimeBlock.stop

/-- What `prepareTimeIndex` sets for a snapshot of `size` bytes: the ranges to read and
the index to build. -/
def prepared (q : Interval) (size : Nat) : Option FileTimeIndex → List TimeBlock × Option IndexBuild
  | none => ([.range 0 size], some ⟨[], 0, false⟩)
  | some c =>
    if size = c.snap.size then (c.blocks.filter fun b => overlaps b q, none)
    else ((c.kept.filter fun b => overlaps b q) ++ [.range c.keptStop size], some ⟨c.kept, c.keptStop, false⟩)

/-- `finishTimeIndex`: at most 64 indexes and 8192 blocks, the oldest leave first. -/
def evict (total : Nat) : List FileTimeIndex → List FileTimeIndex
  | [] => []
  | i :: rest =>
    if total > maxTimeIndexBlocks ∨ (i :: rest).length ≥ 64 then evict (total - i.blocks.length) rest else i :: rest

def finishedIndex (snap : FileSnapshot) : Option IndexBuild → List FileTimeIndex
  | none => indexes
  | some b =>
    if b.disabled then indexes
    else
      let indexes := indexes.filter fun i => i.key ≠ key
      let total := b.blocks.length + (indexes.map fun i => i.blocks.length).sum
      evict total indexes ++ [⟨key, snap, b.blocks⟩]

variable {indexes : List FileTimeIndex}

theorem mem_evict {i : FileTimeIndex} {total : Nat} (h : i ∈ evict total indexes) :
    i ∈ indexes := by
  induction indexes generalizing total with
  | nil => exact h
  | cons j indexes ih =>
    simp only [evict] at h
    split at h
    next => exact mem_cons_of_mem _ (ih h)
    next => exact h

theorem mem_finishedIndex {i : FileTimeIndex} {key : IndexKey} {snap : FileSnapshot}
    {build : Option IndexBuild} (h : i ∈ finishedIndex indexes key snap build) :
    i ∈ indexes ∨ ∃ b, build = some b ∧ b.disabled = false ∧ i = ⟨key, snap, b.blocks⟩ := by
  cases build with
  | none => exact .inl h
  | some b =>
    simp only [finishedIndex] at h
    split at h
    next => exact .inl h
    next hd =>
      rcases mem_append.mp h with h | h
      · exact .inl (mem_filter.mp (mem_evict h)).1
      · exact .inr ⟨b, rfl, by simpa using hd, mem_singleton.mp h⟩

theorem mem_takeIndex {key : IndexKey} {i : FileTimeIndex}
    (h : i ∈ (takeIndex indexes key).2) : i ∈ indexes := by
  have := mem_of_mem_eraseP (mem_reverse.mp h)
  exact mem_reverse.mp this

theorem takeIndex_spec {key : IndexKey} {i : FileTimeIndex}
    (h : (takeIndex indexes key).1 = some i) : i ∈ indexes ∧ i.key = key := by
  refine ⟨mem_reverse.mp (mem_of_find?_eq_some h), ?_⟩
  simpa using List.find?_some h

/-- The cached index, if any, is one of the engine's, and no index is added. -/
theorem cachedIndex_spec (indexes : List FileTimeIndex) (f : File) :
    (∀ c, (cachedIndex digest indexes key f).1 = some c →
      c ∈ indexes ∧ c.key = key ∧ snapshotMatches digest f c.snap = true) ∧
    ∀ i ∈ (cachedIndex digest indexes key f).2, i ∈ indexes := by
  have hkept := @mem_takeIndex indexes key
  have hfound := @takeIndex_spec indexes key
  revert hkept hfound
  simp only [cachedIndex]
  cases takeIndex indexes key with
  | mk found others =>
    cases found with
    | none => exact fun hkept _ => ⟨nofun, fun i hi => hkept hi⟩
    | some item =>
      intro hkept hfound
      have hitem := hfound (i := item) rfl
      dsimp only
      cases hm : snapshotMatches digest f item.snap with
      | false =>
        simp only [Bool.false_eq_true, if_false]
        exact ⟨nofun, fun i hi => hkept hi⟩
      | true =>
        simp only [if_true]
        refine ⟨fun c hc => ?_, fun i hi => ?_⟩
        · cases hc
          exact ⟨hitem.1, hitem.2, hm⟩
        · rcases mem_append.mp hi with hi | hi
          · exact hkept hi
          · rw [mem_singleton.mp hi]
            exact hitem.1

/-! ### Ranges within a snapshot -/

/-- The ranges are disjoint, increasing and within the first `n` bytes. -/
structure Within (n : Nat) (ranges : List TimeBlock) : Prop where
  inside : ∀ b ∈ ranges, b.start ≤ b.stop ∧ b.stop ≤ n
  increasing : ranges.Pairwise fun a b => a.stop ≤ b.start

/-- The index can be used for a snapshot of `size` bytes: it was built from a snapshot
of that size, or no block but the last reaches beyond it. -/
def Fits (size : Nat) (c : FileTimeIndex) : Prop := size = c.snap.size ∨ c.keptStop ≤ size

instance (size : Nat) (c : FileTimeIndex) : Decidable (Fits size c) := inferInstanceAs (Decidable (_ ∨ _))

/-- The blocks of an index lie end to end, within its snapshot. -/
def FileTimeIndex.Lies (c : FileTimeIndex) : Prop := ∃ k, k ≤ c.snap.size ∧ BlocksLie 0 c.blocks k

theorem FileTimeIndex.Lies.kept {c : FileTimeIndex} (h : c.Lies) : BlocksLie 0 c.kept c.keptStop := by
  obtain ⟨k, -, hk⟩ := h
  simp only [FileTimeIndex.keptStop, FileTimeIndex.kept]
  rcases eq_nil_or_concat c.blocks with hnil | ⟨bs, v, hbs⟩
  · simp only [hnil]
    exact .nil
  · simp only [hbs, concat_eq_append] at hk ⊢
    obtain ⟨m, hb, -⟩ := Tiles.split hk
    rw [dropLast_concat]
    rcases eq_nil_or_concat bs with hnil | ⟨bs', u, hbs'⟩
    · subst hnil
      exact .nil
    · subst hbs'
      simp only [concat_eq_append] at hb ⊢
      rw [List.getLast?_concat, Option.elim_some]
      obtain ⟨m', hb', hu⟩ := Tiles.split hb
      exact hb'.append ⟨hu.1, hu.2.1, rfl⟩

theorem FileTimeIndex.Lies.keptStop_le {c : FileTimeIndex} (h : c.Lies) : c.keptStop ≤ c.snap.size := by
  obtain ⟨k, hk, hlie⟩ := h
  rcases eq_nil_or_concat c.kept with hnil | ⟨bs, v, hbs⟩
  · simp [FileTimeIndex.keptStop, hnil]
  · have hv : v ∈ c.kept := by simp [hbs]
    have hstop : c.keptStop = v.stop := by
      simp only [FileTimeIndex.keptStop, hbs, concat_eq_append, List.getLast?_concat, Option.elim_some]
    have := hlie.bounds (dropLast_subset _ hv)
    omega

theorem Within.of_lie {bs : List TimeBlock} {k n : Nat} (h : BlocksLie 0 bs k) (hk : k ≤ n) (p : TimeBlock → Bool) :
    Within n (bs.filter p) where
  inside b hb := by
    have := h.bounds (mem_of_mem_filter hb)
    omega
  increasing := h.pairwise.filter p

/-- `prepareTimeIndex` stays within the snapshot exactly when the cached index fits it. -/
theorem prepared_within (q : Interval) (size : Nat) {cached : Option FileTimeIndex}
    (h : ∀ c, cached = some c → c.Lies) :
    Within size (prepared q size cached).1 ↔ ∀ c, cached = some c → Fits size c := by
  cases cached with
  | none =>
    refine iff_of_true ⟨fun b hb => ?_, pairwise_singleton _ _⟩ nofun
    rw [mem_singleton.mp hb]
    exact ⟨Nat.zero_le _, Nat.le_refl _⟩
  | some c =>
    have hc := h c rfl
    simp only [Option.some.injEq, forall_eq', prepared]
    split
    next hsize =>
      obtain ⟨k, hk, hlie⟩ := hc
      exact iff_of_true (.of_lie hlie (hsize ▸ hk) _) (.inl hsize)
    next hsize =>
      constructor
      · intro hw
        have := hw.inside (.range c.keptStop size) (by simp)
        exact .inr this.1
      · intro hfits
        have hstop : c.keptStop ≤ size := hfits.resolve_left hsize
        have hkept := Within.of_lie hc.kept hstop fun b => overlaps b q
        refine ⟨fun b hb => ?_, pairwise_append.mpr ⟨hkept.increasing, pairwise_singleton _ _, ?_⟩⟩
        · rcases mem_append.mp hb with hb | hb
          · exact hkept.inside b hb
          · rw [mem_singleton.mp hb]
            exact ⟨hstop, Nat.le_refl _⟩
        · intro a ha b hb
          rw [mem_singleton.mp hb]
          exact (hc.kept.bounds (mem_of_mem_filter ha)).2.2

end ControlTower.Logs
