import ControlTower.Go.Decimal
import Mathlib.Data.Finset.Insert
import Mathlib.Data.String.Basic

/-! The saved details of a bill.

The rows are written to the entries of an archive, a new entry for every so many rows or
bytes, and the manifest says of each entry how many rows it has and what its times, models
and tokens are. A reader numbers the rows through all entries. It passes over entries that
lie before its cursor, and over those that by their manifest have no row for its filter. -/
namespace ControlTower.Billing
open Go

structure SettlementDetailRow where
  unitPrice : String
  imageInput : String
  imageOutput : String
  audioInput : String
  audioOutput : String
  beforeAmount : String
  discount : String
  time : String
  requestID : String
  model : String
  token : String
  tokenID : String
  input : String
  output : String
  cacheRead : String
  cacheWrite : String
  amount : String
  deriving DecidableEq

structure SettlementDetailPart where
  name : String
  rows : Nat
  first : String
  last : String
  models : Finset String
  tokens : Finset String
  deriving DecidableEq

structure SettlementDetailManifest where
  version : Nat
  total : Nat
  currency : String
  parts : List SettlementDetailPart
  deriving DecidableEq

structure SettlementDetailFilter where
  from_ : String
  to_ : String
  model : String
  token : String
  deriving DecidableEq

def SettlementDetailRow.tokenKey (v : SettlementDetailRow) : String :=
  if v.tokenID ≠ "" ∧ v.tokenID ≠ "0" then v.token ++ " (#" ++ v.tokenID ++ ")" else v.token

namespace SettlementDetailFilter

def Match (f : SettlementDetailFilter) (v : SettlementDetailRow) : Bool :=
  (f.from_ = "" || f.from_ ≤ v.time) && (f.to_ = "" || v.time < f.to_) && (f.model = "" || v.model = f.model) &&
    (f.token = "" || v.tokenKey = f.token)

def includes (f : SettlementDetailFilter) (p : SettlementDetailPart) : Bool :=
  (f.from_ = "" || f.from_ ≤ p.last) && (f.to_ = "" || p.first < f.to_) && (f.model = "" || f.model ∈ p.models) &&
    (f.token = "" || f.token ∈ p.tokens)

end SettlementDetailFilter

/-! ### Writing -/

def settlementDetailPartRows : Nat := 50000

/-- A part of the manifest, with the rows of the entry that has its name. -/
structure PartFile where
  part : SettlementDetailPart
  rows : List SettlementDetailRow

/-- The number of a part in its name, with at least five digits. -/
def paddedDigits (n : Nat) : List Char := List.replicate (5 - (Nat.toDigits 10 n).length) '0' ++ Nat.toDigits 10 n

def partName (n : Nat) : String := "part-" ++ String.ofList (paddedDigits n) ++ ".jsonl"

/-- The part that gets the number, before its first row. -/
def PartFile.start (n : Nat) : PartFile := ⟨⟨partName n, 0, "", "", ∅, ∅⟩, []⟩

def PartFile.add (p : PartFile) (v : SettlementDetailRow) : PartFile where
  part :=
    { p.part with
      first := if p.part.rows = 0 ∨ v.time < p.part.first then v.time else p.part.first
      last := if p.part.last < v.time then v.time else p.part.last
      rows := p.part.rows + 1
      models := insert v.model p.part.models
      tokens := insert v.tokenKey p.part.tokens }
  rows := p.rows ++ [v]

/-- The parts so far, the one that is being written apart. -/
structure DetailWriter where
  closed : List PartFile
  current : Option PartFile
  bytes : Nat
  total : Nat

namespace DetailWriter

def empty : DetailWriter := ⟨[], none, 0, 0⟩

variable (w : DetailWriter)

def files : List PartFile := w.closed ++ w.current.toList

def needsPart : Bool :=
  w.current.elim true fun p => settlementDetailPartRows ≤ p.part.rows || 16 * 1024 * 1024 ≤ w.bytes

def startPart : DetailWriter :=
  { w with closed := w.files, current := some (PartFile.start (w.files.length + 1)), bytes := 0 }

def rowBytes (v : SettlementDetailRow) : Nat :=
  v.time.utf8ByteSize + v.requestID.utf8ByteSize + v.model.utf8ByteSize + v.token.utf8ByteSize + v.amount.utf8ByteSize + 160

def encode (v : SettlementDetailRow) : DetailWriter :=
  { w with current := w.current.map fun p => p.add v, bytes := w.bytes + rowBytes v, total := w.total + 1 }

def write (v : SettlementDetailRow) : DetailWriter := (if w.needsPart then w.startPart else w).encode v

end DetailWriter

/-- An archive: the manifest, and the rows of the other entries by name. -/
structure DetailArchive where
  manifest : SettlementDetailManifest
  entries : List (String × List SettlementDetailRow)

/-- `WriteSettlementDetailArchive`. -/
def writeSettlementDetailArchive (currency : String) (rows : List SettlementDetailRow) : DetailArchive :=
  let w := rows.foldl DetailWriter.write .empty
  ⟨⟨1, w.total, currency, w.files.map PartFile.part⟩, w.files.map fun p => (p.part.name, p.rows)⟩

/-! ### Reading -/

def openSettlementDetails (archive : DetailArchive) : Except String DetailArchive :=
  if archive.manifest.version ≠ 1 then .error "invalid detail manifest: <nil>" else .ok archive

def defaultSettlementPrice (before discount amount : String) : String × String :=
  let discount := if trimSpace discount = "" then "1" else discount
  (if ratSetString discount = some 1 ∧ (before = "" ∨ before = "—") then amount else before, discount)

/-- The row as it is read: a missing discount is none, and missing counts are zero. -/
def SettlementDetailRow.filled (v : SettlementDetailRow) : SettlementDetailRow :=
  let zero (value : String) := if trimSpace value = "" then "0" else value
  { v with
    beforeAmount := (defaultSettlementPrice v.beforeAmount v.discount v.amount).1
    discount := (defaultSettlementPrice v.beforeAmount v.discount v.amount).2
    imageInput := zero v.imageInput
    imageOutput := zero v.imageOutput
    audioInput := zero v.audioInput
    audioOutput := zero v.audioOutput }

/-- Why a visit ends before the last row: something failed, or `errDetailPageFull`, with
what the visitor has by then. -/
inductive VisitStop (σ : Type)
  | failed (error : String)
  | pageFull (s : σ)

section Visit
variable {σ : Type} (f : SettlementDetailFilter) (cursor : Nat) (visit : σ → SettlementDetailRow → Nat → Except (VisitStop σ) σ)

/-- The rows of one entry. So many are left to read, and so many rows came before. -/
def visitRows : (left : Nat) → List SettlementDetailRow → (offset : Nat) → σ → Except (VisitStop σ) σ
  | 0, _, _, s => .ok s
  | _ + 1, [], _, _ => .error (.failed "EOF")
  | left + 1, v :: rest, offset, s =>
    if cursor < offset + 1 ∧ f.Match v.filled = true then
      match visit s v.filled (offset + 1) with
      | .error stop => .error stop
      | .ok s => visitRows left rest (offset + 1) s
    else visitRows left rest (offset + 1) s

def visitParts (entries : List (String × List SettlementDetailRow)) :
    List SettlementDetailPart → (offset : Nat) → σ → Except (VisitStop σ) σ
  | [], _, s => .ok s
  | p :: rest, offset, s =>
    if offset + p.rows ≤ cursor ∨ f.includes p = false then visitParts entries rest (offset + p.rows) s
    else match entries.lookup p.name with
      | none => .error (.failed "file does not exist")
      | some rows =>
        match visitRows f cursor visit p.rows rows offset s with
        | .error stop => .error stop
        | .ok s => visitParts entries rest (offset + p.rows) s

end Visit

namespace DetailArchive

def visit {σ : Type} (d : DetailArchive) (f : SettlementDetailFilter) (cursor : Nat)
    (visit : σ → SettlementDetailRow → Nat → Except (VisitStop σ) σ) (s : σ) : Except (VisitStop σ) σ :=
  visitParts f cursor visit d.entries d.manifest.parts 0 s

/-- The variables of `Page`. -/
structure PageState where
  rows : List SettlementDetailRow
  next : Nat
  last : Nat

def pageVisit (limit : Nat) (s : PageState) (v : SettlementDetailRow) (offset : Nat) : Except (VisitStop PageState) PageState :=
  if s.rows.length = limit then .error (.pageFull { s with next := s.last })
  else .ok { s with rows := s.rows ++ [v], last := offset }

def page (d : DetailArchive) (f : SettlementDetailFilter) (cursor limit : Nat) : Except String (List SettlementDetailRow × Nat) :=
  if limit < 1 ∨ 200 < limit then .error "invalid detail page size"
  else match d.visit f cursor (pageVisit limit) ⟨[], 0, cursor⟩ with
    | .ok s => .ok (s.rows, s.next)
    | .error (.pageFull s) => .ok (s.rows, s.next)
    | .error (.failed error) => .error error

/-- The pages from a cursor on, each read with the cursor that the one before returned,
until that is zero. -/
inductive Pages (d : DetailArchive) (f : SettlementDetailFilter) (limit : Nat) : (cursor : Nat) → List (List SettlementDetailRow) → Prop
  | last {cursor : Nat} {rows : List SettlementDetailRow} : d.page f cursor limit = .ok (rows, 0) → Pages d f limit cursor [rows]
  | more {cursor next : Nat} {rows : List SettlementDetailRow} {pages : List (List SettlementDetailRow)} :
    d.page f cursor limit = .ok (rows, next) → next ≠ 0 → Pages d f limit next pages → Pages d f limit cursor (rows :: pages)

end DetailArchive
end ControlTower.Billing
