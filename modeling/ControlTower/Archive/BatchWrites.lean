import ControlTower.Archive.Ledger

/-! Collection writes in a batch, and one by one.

`writeRaw` compares one row with what the archive has, stores it and touches its date.
A collection page takes another path: month by month, the rows whose ids are there go
through `writeRaw`, the others are inserted by statements of limited size, and each of
their dates is touched once for all of them. What a transaction leaves is described here
by the rows that it has written so far, in no order: both paths meet the description. -/
namespace ControlTower.Archive
open Data List

/-- `LargeLive`, as far as a raw write looks at it. -/
structure PendingLive where
  table : Int
  id : Int
  deriving DecidableEq

/-- A transaction that writes raw rows: the ledger, the transfer for the live statistics if
one is in progress, the changes that `flushLive` will look at, the dates whose live
statistics were given a new version, and the numbers for the receipt. -/
structure Transaction (C K H : Type) where
  ledger : Ledger C K H
  largeLive : Option PendingLive
  liveChanges : List (RawChange C)
  invalidated : List Int
  inserted : Nat
  changed : Nat
  unchanged : Nat

/-- The limits of one insert: `collectionWriteRows`, `collectionStatementBytes` and
`collectionStatementParams`. -/
structure Limits where
  rows : Nat
  bytes : Nat
  params : Nat

/-- What the size of an insert depends on besides its rows: the number of columns, and the
bytes up to `VALUES` for each month. -/
structure Shape where
  limits : Limits
  columns : Nat
  lead : Int → Nat

variable {C K H : Type}

/-- The bytes of one row in an insert: its marks, a share for every column, and twice its
values, as escaping may double them. -/
def Shape.rowBytes (shape : Shape) (r : Record C) : Nat :=
  let mark := 2 + (2 * shape.columns - 1)
  mark + 1 + shape.columns * 16 + 2 * r.payload

/-- The loop of `insertCollectionRows`: the rows of each statement, where `values` are those of
the statement that is being put together and `bytes` is its size. -/
def Shape.statements (shape : Shape) (name : Int) : List (Record C) → List (Record C) → Nat → List (List (Record C))
  | [], values, _ => if values.isEmpty then [] else [values]
  | r :: rest, values, bytes =>
    if shape.limits.rows ≤ values.length ∨ shape.limits.params < values.length * shape.columns + shape.columns ∨
        shape.limits.bytes < bytes + shape.rowBytes r then
      (if values.isEmpty then [] else [values]) ++ shape.statements name rest [r] (shape.lead name + shape.rowBytes r)
    else shape.statements name rest (values ++ [r]) (bytes + shape.rowBytes r)

namespace Transaction

/-- The row of this id in the month of `r`. -/
def stored (t : Transaction C K H) (r : Record C) : Option (Record C) := (t.ledger.tables (table (day r.created))).find r.id

section Writes
variable [DecidableEq C] (t : Transaction C K H)

/-- The archive has another row under this id, or none. -/
def differs (r : Record C) : Bool := t.stored r != some r

/-- What is recorded of a row that differs. A row too large to be read back is not given. -/
def change (r : Record C) : RawChange C := ⟨(t.stored r).filter fun old => old.size ≤ maxPageBytes, r⟩

/-- The row takes the place of one that is too large to be followed, on a date that is summed. -/
def invalidates (r : Record C) : Bool :=
  t.differs r && (t.stored r).any (fun old => maxPageBytes < old.size) && decide (t.ledger.summaryFrom ≤ day r.created)

def writeRaw (r : Record C) : Option (Transaction C K H) :=
  (t.ledger.writeRaw r).map fun ledger =>
    { ledger
      largeLive := t.largeLive.filter fun l => !(t.differs r && l.table == table (day r.created) && l.id == r.id)
      liveChanges := t.liveChanges ++ if t.differs r then [t.change r] else []
      invalidated := t.invalidated ++ if t.invalidates r then [day r.created] else []
      inserted := t.inserted + if (t.stored r).isNone then 1 else 0
      changed := t.changed + if t.differs r && (t.stored r).isSome then 1 else 0
      unchanged := t.unchanged + if t.differs r then 0 else 1 }

end Writes

end Transaction

/-! ### Statements -/

/-- A row alone, or rows within the limits. -/
def Shape.Fits (shape : Shape) (name : Int) (rows : List (Record C)) : Prop :=
  rows.length = 1 ∨ rows.length ≤ shape.limits.rows ∧ rows.length * shape.columns ≤ shape.limits.params ∧
    shape.lead name + (rows.map shape.rowBytes).sum ≤ shape.limits.bytes

/-- **No statement exceeds the limits**, but for a row that travels alone. -/
theorem Shape.statements_limited (shape : Shape) (name : Int) (rows : List (Record C)) :
    (shape.statements name rows [] (shape.lead name)).Forall (shape.Fits name) := by
  suffices h : ∀ values : List (Record C), values = [] ∨ shape.Fits name values →
      (shape.statements name rows values (shape.lead name + (values.map shape.rowBytes).sum)).Forall (shape.Fits name) from
    h [] (.inl rfl)
  induction rows with
  | nil =>
    intro values hv
    cases values <;> simp_all [statements]
  | cons r rows ih =>
    intro values hv
    have hone := ih [r] (.inr (.inl rfl))
    rw [statements]
    split
    next => cases values <;> simp_all
    next hroom =>
      simpa [Nat.add_assoc] using ih (values ++ [r]) (.inr (.inr (by simp [Nat.succ_mul]; omega)))

namespace Ledger

theorem insertCollectionRows_same {name : Int} {rows : List (Record C)} {s s' : Ledger C K H}
    (h : insertCollectionRows name s rows = some s') : s' = { s with tables := s'.tables } := by
  induction rows generalizing s with
  | nil =>
    cases h
    rfl
  | cons r rows ih =>
    rw [insertCollectionRows] at h
    split at h
    · cases h
    · exact (ih h).trans rfl

theorem mem_insertCollectionRows {name : Int} {rows : List (Record C)} {s s' : Ledger C K H} (h : insertCollectionRows name s rows = some s')
    (n : Int) (a : Record C) : a ∈ s'.tables n ↔ (n = name ∧ a ∈ rows) ∨ a ∈ s.tables n := by
  induction rows generalizing s with
  | nil =>
    cases h
    simp
  | cons r rows ih =>
    rw [insertCollectionRows] at h
    split at h
    · cases h
    next habsent =>
      rw [Option.not_isSome_iff_eq_none, Table.find_eq_none] at habsent
      rw [ih h, mem_store]
      by_cases hn : n = name
      · subst hn
        simp only [if_true, true_and, mem_cons]
        constructor
        · rintro (ha | ha | ha)
          · exact .inl (.inr ha)
          · exact .inl (.inl ha)
          · exact .inr ha.1
        · rintro ((ha | ha) | ha)
          · exact .inr (.inl ha)
          · exact .inl ha
          · exact .inr (.inr ⟨ha, habsent a ha⟩)
      · simp [hn]

end Ledger

end ControlTower.Archive
