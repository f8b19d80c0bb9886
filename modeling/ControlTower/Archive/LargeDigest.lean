import Mathlib.Data.List.Sort
import ControlTower.Data.Incremental
import ControlTower.Go.Binary

/-! The digest of a row that is too large for a page.

Such a row is read in chunks over several turns. Between turns the state of its hash is
saved, with the column and the offset that were reached; the headers of the columns are
written when a column is begun. An ordinary row is hashed in one go, by other code. -/
namespace ControlTower.Archive
open Go Data

/-- A column of a row, `none` where it is NULL. -/
structure Field where
  name : Bytes
  value : Option Bytes

/-- The keys of a row in the order of `sort.Strings`. -/
def sorted (row : List Field) : List Field := row.insertionSort fun a b => a.name ≤ b.name

section Row
variable {S : Type} (h : Incremental UInt8 S Bytes)

/-- The closure `field` of `rowHash`: the length in eight bytes, then the value. -/
def hashField (s : S) (value : Bytes) : S := h.write (h.write s (putUint 8 value.length)) value

def rowHash (row : List Field) : Bytes :=
  h.digest ((sorted row).foldl (fun s f =>
    match f.value with
    | none => h.write (hashField h s f.name) [0]
    | some value => hashField h (h.write (hashField h s f.name) [1]) value) h.start)

def chain (previous : Bytes) (row : List Field) : Bytes := h.digest (h.after (previous ++ rowHash h row))

def chainDigest (previous digest : Bytes) : Bytes := h.digest (h.after (previous ++ digest))

end Row

/-! ### Transfers -/

structure LargeColumn where
  name : Bytes
  bytes : Nat
  null : Bool
  deriving DecidableEq

/-- The bytes of a column; NULL has none. -/
def Field.content (f : Field) : Bytes := f.value.getD []

/-- The octet lengths of the columns. -/
def largeMetadata (row : List Field) : List LargeColumn :=
  (sorted row).map fun f => ⟨f.name, f.content.length, f.value.isNone⟩

/-- A row of `log_archive_large_chunks`, of one transfer. -/
structure Chunk where
  column : Nat
  index : Nat
  data : Bytes

/-- The saved state of a transfer; no text stands for a digest that is not there. -/
structure LargeTransfer where
  columns : List LargeColumn
  column : Nat
  offset : Nat
  hashState : Bytes
  fieldHashState : Bytes
  fieldDigests : List Bytes
  chunkBytes : Nat
  digest : Bytes

def startLarge (row : List Field) (chunkBytes : Nat) : LargeTransfer :=
  ⟨largeMetadata row, 0, 0, [], [], List.replicate (largeMetadata row).length [], chunkBytes, []⟩

def largeChunkBytes : Nat := 4 * 1024 * 1024

def largeChunksPerTurn : Nat := 2

/-- The modes of a transfer that hash a whole row. -/
inductive LargeMode where
  | collect
  | verifySource
  | verifyArchive
  deriving DecidableEq

/-- What the loop of a turn works on. -/
structure LargeTurn (S : Type) where
  column : Nat
  offset : Nat
  hash : S
  fieldHash : S
  fieldDigests : List Bytes
  chunks : List Chunk

section Transfer
variable {S : Type} (h : Incremental UInt8 S Bytes)

def largeHash (state : Bytes) : Option S := if state.isEmpty then some h.start else h.restore state

def hashFieldHeader (s : S) (col : LargeColumn) : S :=
  let s := h.write (h.write s (putUint 8 col.name.length)) col.name
  if col.null then h.write s [0] else h.write (h.write s [1]) (putUint 8 col.bytes)

/-- `SELECT SUBSTRING(...)`: bytes of a column, from an offset on. -/
def substring (row : List Field) (name : Bytes) (offset length : Nat) : Bytes :=
  (((row.find? fun f => f.name == name).elim [] Field.content).drop offset).take length

/-- A chunk is read: the hashes, the chunk to store, and the digest of a column that is complete. -/
def LargeTurn.read (t : LargeTurn S) (chunkBytes : Nat) (col : LargeColumn) (hash : S) (data : Bytes) : LargeTurn S :=
  let fieldHash := h.write t.fieldHash data
  let chunks := t.chunks ++ [⟨t.column, t.offset / chunkBytes, data⟩]
  if t.offset + data.length = col.bytes then
    ⟨t.column + 1, 0, h.write hash data, h.start, t.fieldDigests.set t.column (h.digest fieldHash), chunks⟩
  else ⟨t.column, t.offset + data.length, h.write hash data, fieldHash, t.fieldDigests, chunks⟩

/-- The loop of `processLarge`. Every round moves to the next column or reads a chunk, so as
many rounds are enough as there are columns and chunks of a turn; `late` says after which
chunk the second of a turn is over. -/
def chunkLoop (row : List Field) (columns : List LargeColumn) (chunkBytes : Nat) (late : Nat → Bool) : Nat → LargeTurn S → Option (LargeTurn S)
  | 0, t => some t
  | rounds + 1, t =>
    if t.chunks.length < largeChunksPerTurn then
      match columns[t.column]? with
      | none => some t
      | some col =>
        let hash := if t.offset = 0 then hashFieldHeader h t.hash col else t.hash
        if col.null || col.bytes == 0 then chunkLoop row columns chunkBytes late rounds { t with column := t.column + 1, hash := hash }
        else
          let length := min chunkBytes (col.bytes - t.offset)
          let data := substring row col.name t.offset length
          if data.length ≠ length then none
          else if late (t.chunks.length + 1) then some (t.read h chunkBytes col hash data)
          else chunkLoop row columns chunkBytes late rounds (t.read h chunkBytes col hash data)
    else some t

/-- The checks at the head of `processLarge`. -/
def LargeTransfer.valid (r : LargeTransfer) : Bool :=
  !r.columns.isEmpty && r.fieldDigests.length == r.columns.length && r.column ≤ r.columns.length &&
    (r.columns[r.column]?).all (fun col => r.offset ≤ col.bytes) && 64 * 1024 ≤ r.chunkBytes && r.chunkBytes ≤ largeChunkBytes

/-- A turn of `processLarge` while there is no digest, on the row as it is now: the transfer
to save and the chunks that were read. -/
def processLarge (row : List Field) (late : Nat → Bool) (r : LargeTransfer) : Option (LargeTransfer × List Chunk) := do
  if !r.valid || largeMetadata row != r.columns then none else
  let fieldHash ← largeHash h r.fieldHashState
  let hash ← largeHash h r.hashState
  let t ← chunkLoop h row r.columns r.chunkBytes late (r.columns.length + largeChunksPerTurn)
    ⟨r.column, r.offset, hash, fieldHash, r.fieldDigests, []⟩
  some ({ r with
    column := t.column
    offset := t.offset
    hashState := h.save t.hash
    fieldHashState := h.save t.fieldHash
    fieldDigests := t.fieldDigests
    digest := if t.column = r.columns.length then h.digest t.hash else [] }, t.chunks)

/-- `INSERT INTO log_archive_large_chunks`, whose key is the column and the index. -/
def insertChunk (stored : List Chunk) (c : Chunk) : Option (List Chunk) :=
  if stored.any fun o => o.column == c.column && o.index == c.index then none else some (stored ++ [c])

/-- Archive verification needs no second copy of the row. -/
def LargeMode.store (mode : LargeMode) (stored chunks : List Chunk) : Option (List Chunk) :=
  if mode = .verifyArchive then some stored else chunks.foldlM insertChunk stored

/-- Turns of a transfer until it has a digest, with the chunks that they store. -/
def LargeTransfer.run (mode : LargeMode) (row : List Field) : LargeTransfer → List Chunk → List (Nat → Bool) → Option (LargeTransfer × List Chunk)
  | r, stored, [] => some (r, stored)
  | r, stored, late :: turns =>
    if r.digest ≠ [] then some (r, stored) else do
    let (r, chunks) ← processLarge h row late r
    run mode row r (← mode.store stored chunks) turns

end Transfer

/-- `GROUP_CONCAT(payload ORDER BY chunk_index SEPARATOR '')` of a column. -/
def reassemble (stored : List Chunk) (column : Nat) : Bytes :=
  ((stored.filter fun c => c.column == column).insertionSort fun a b => a.index ≤ b.index).flatMap Chunk.data

end ControlTower.Archive
