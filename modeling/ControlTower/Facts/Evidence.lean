import ControlTower.Go.Binary
import ControlTower.Go.Finmap

/-! Billing evidence: the bytes that preserve the billed columns of a source row.

The codec writes sixteen fields in a fixed order, each behind its name: a tag for
an absent column, or the column's type and then a tag for SQL NULL or the value.
`Entry` is what one field holds; `encodeField_iff` and `decodeField_iff` say that
one turn of either loop writes, or reads, exactly one entry, and the whole codec
follows from these by induction over the fields.

The two sides do not bound a payload alike. The decoder refuses more than
`maxEvidenceBytes`; the encoder looks at the length only after a field that is
present. -/
namespace ControlTower.Facts
open Go Option Finmap

def evidenceCodecVersion : Int := 1

def maxEvidenceBytes : Nat := 67108864

structure Column where
  name : Bytes
  type : Bytes
deriving DecidableEq

abbrev Hash := Vector UInt8 32

def Hash.zero : Hash := Vector.replicate 32 0

structure Evidence where
  codecVersion : Int
  sourceSchemaHash : Hash
  payload : Bytes
  hash : Hash
deriving DecidableEq

/-- A `map[string][]byte`; a nil slice is `none`. -/
abbrev Values := Finmap fun _ : Bytes => Option Bytes

def evidenceFields : List Bytes :=
  ["id", "created_at", "type", "user_id", "token_id", "channel_id", "username", "token_name",
    "model_name", "group", "request_id", "upstream_request_id", "quota", "prompt_tokens",
    "completion_tokens", "other"].map ascii

def magic : Bytes := ascii "CT-BILLING-EVIDENCE" ++ [0]

/-! ### Encoding -/

/-- One turn of the loop over the columns. -/
def addColumn (types : Finmap fun _ : Bytes => Bytes) (c : Column) :
    Option (Finmap fun _ : Bytes => Bytes) :=
  if c.name = [] ∨ c.type = [] ∨ 4096 < c.name.length ∨ 4096 < c.type.length then none else
  if c.name ∈ types then none else some (types.insert c.name c.type)

/-- One turn of the loop over the fields. -/
def encodeField (types : Finmap fun _ : Bytes => Bytes) (values : Values) (b name : Bytes) :
    Option Bytes :=
  match types.lookup name with
  | none => if name ∈ values then none else some (b ++ frame name ++ flag false)
  | some kind =>
    match values.lookup name with
    | none => none
    | some none =>
      if maxEvidenceBytes < (b ++ frame name ++ flag true ++ frame kind ++ flag false).length then none
      else some (b ++ frame name ++ flag true ++ frame kind ++ flag false)
    | some (some value) =>
      if maxEvidenceBytes < value.length then none else
      if maxEvidenceBytes <
          (b ++ frame name ++ flag true ++ frame kind ++ flag true ++ frame value).length then none
      else some (b ++ frame name ++ flag true ++ frame kind ++ flag true ++ frame value)

section Codec
variable (sha256 : Bytes → Hash)

/-- `evidenceHash`, of the fields it reads. -/
def evidenceHash (codecVersion : Int) (schemaHash : Hash) (payload : Bytes) : Hash :=
  sha256 (ascii "CT-BILLING-EVIDENCE-HASH" ++ [0] ++ putUint 4 (codecVersion % 4294967296).toNat ++
    schemaHash.toList ++ frame payload)

/-- `EncodeEvidence`. -/
def encodeEvidence (columns : List Column) (values : Values) (schemaHash : Hash) : Option Evidence :=
  if schemaHash = Hash.zero then none else do
  let types ← columns.foldlM addColumn ∅
  let payload ← evidenceFields.foldlM (encodeField types values) magic
  some ⟨evidenceCodecVersion, schemaHash, payload,
    evidenceHash sha256 evidenceCodecVersion schemaHash payload⟩

/-! ### Decoding -/

/-- What the decoding loop carries: the columns and values so far, and the reader. -/
structure Decoding where
  columns : List Column
  values : Values
  reader : Bytes

/-- One turn of the loop over the expected fields. -/
def decodeField (d : Decoding) (expected : Bytes) : Option Decoding := do
  let (name, r) ← readFrame maxEvidenceBytes d.reader
  if name ≠ expected then none else
  let (present, r) ← readFlag r
  if !present then some {d with reader := r} else
  let (kind, r) ← readFrame maxEvidenceBytes r
  if kind = [] ∨ 4096 < kind.length then none else
  let (known, r) ← readFlag r
  if !known then
    some ⟨d.columns ++ [⟨expected, kind⟩], d.values.insert expected none, r⟩
  else
    let (value, r) ← readFrame maxEvidenceBytes r
    some ⟨d.columns ++ [⟨expected, kind⟩], d.values.insert expected (some value), r⟩

/-- `DecodeEvidence`. -/
def decodeEvidence (e : Evidence) : Option (List Column × Values) :=
  if e.codecVersion ≠ evidenceCodecVersion ∨ e.sourceSchemaHash = Hash.zero ∨
      maxEvidenceBytes < e.payload.length ∨
      e.hash ≠ evidenceHash sha256 e.codecVersion e.sourceSchemaHash e.payload then none else
  if e.payload.take magic.length ≠ magic then none else do
  let d ← evidenceFields.foldlM decodeField ⟨[], ∅, e.payload.drop magic.length⟩
  if d.reader = [] then some (d.columns, d.values) else none

end Codec

/-! ### One field -/

/-- What one field of the payload holds. -/
inductive Entry where
  | absent
  | present (kind : Bytes) (value : Option Bytes)
deriving DecidableEq

open Entry

def Entry.write (name : Bytes) : Entry → Bytes
  | .absent => frame name ++ flag false
  | .present kind none => frame name ++ flag true ++ frame kind ++ flag false
  | .present kind (some value) =>
    frame name ++ flag true ++ frame kind ++ flag true ++ frame value

/-- A type that a column can have. -/
def Entry.TypeOk : Entry → Prop
  | .absent => True
  | .present kind _ => kind ≠ [] ∧ kind.length ≤ 4096

/-- A value that fits in a payload. -/
def Entry.ValueOk : Entry → Prop
  | .present _ (some value) => value.length ≤ maxEvidenceBytes
  | _ => True

/-- The column a present field adds. -/
def Entry.column (name : Bytes) : Entry → List Column
  | .absent => []
  | .present kind _ => [⟨name, kind⟩]

/-- The value a present field adds. -/
def Entry.store (name : Bytes) (values : Values) : Entry → Values
  | .absent => values
  | .present _ value => values.insert name value

/-- The entry of a field; none if the schema and the values disagree about it. -/
def entryOf (types : Finmap fun _ : Bytes => Bytes) (values : Values) (name : Bytes) : Option Entry :=
  match types.lookup name, values.lookup name with
  | none, none => some .absent
  | some kind, some value => some (.present kind value)
  | _, _ => none

variable {types : Finmap fun _ : Bytes => Bytes} {values : Values}

theorem encodeField_iff {b b' name : Bytes} : encodeField types values b name = some b' ↔
      ∃ e, entryOf types values name = some e ∧ e.ValueOk ∧ b' = b ++ e.write name ∧
        (e ≠ .absent → b'.length ≤ maxEvidenceBytes) := by
  unfold encodeField entryOf
  cases ht : types.lookup name with
  | none =>
    cases hv : values.lookup name with
    | none =>
      have hmem : name ∉ values := lookup_eq_none.mp hv
      simp only [if_neg hmem, Option.some.injEq]
      constructor
      · rintro rfl
        exact ⟨.absent, rfl, trivial, by simp [write], fun hne => absurd rfl hne⟩
      · rintro ⟨e, rfl, -, rfl, -⟩
        simp [write]
    | some value =>
      have hmem : name ∈ values := mem_of_lookup_eq_some hv
      simp [hmem]
  | some kind =>
    cases hv : values.lookup name with
    | none => simp
    | some value =>
      cases value with
      | none =>
        simp only [Option.some.injEq, ite_none_left_eq_some, Nat.not_lt]
        constructor
        · rintro ⟨hlen, rfl⟩
          exact ⟨_, rfl, trivial, by simp [write], fun _ => hlen⟩
        · rintro ⟨e, rfl, -, rfl, hlen⟩
          have hw : b ++ write name (.present kind none) =
              b ++ frame name ++ flag true ++ frame kind ++ flag false := by simp [write]
          rw [hw] at hlen ⊢
          exact ⟨hlen (by simp), rfl⟩
      | some value =>
        simp only [Option.some.injEq, ite_none_left_eq_some, Nat.not_lt]
        constructor
        · rintro ⟨hval, hlen, rfl⟩
          exact ⟨_, rfl, hval, by simp [write], fun _ => hlen⟩
        · rintro ⟨e, rfl, hval, rfl, hlen⟩
          have hw : b ++ write name (.present kind (some value)) =
              b ++ frame name ++ flag true ++ frame kind ++ flag true ++ frame value := by
            simp [write]
          rw [hw] at hlen ⊢
          exact ⟨hval, hlen (by simp), rfl⟩

theorem maxEvidenceBytes_lt : maxEvidenceBytes < 256 ^ 8 := by decide

variable {name : Bytes}

theorem decodeField_iff {d d' : Decoding} (hname : name.length ≤ maxEvidenceBytes) :
    decodeField d name = some d' ↔
      ∃ e : Entry, e.TypeOk ∧ e.ValueOk ∧ d.reader = e.write name ++ d'.reader ∧
        d'.columns = d.columns ++ e.column name ∧ d'.values = e.store name d.values := by
  have hframe := @readFrame_iff maxEvidenceBytes maxEvidenceBytes_lt
  obtain ⟨columns, values, reader⟩ := d
  obtain ⟨columns', values', reader'⟩ := d'
  constructor
  · intro h
    simp only [decodeField, bind_eq_bind, bind_eq_some_iff, Prod.exists,
      ite_none_left_eq_some, ne_eq, Decidable.not_not] at h
    obtain ⟨n, r₁, hn, rfl, present, r₂, hp, h⟩ := h
    obtain ⟨rfl, -⟩ := hframe.mp hn
    obtain rfl := readFlag_iff.mp hp
    cases present with
    | false =>
      simp only [Bool.not_false, if_true, Option.some.injEq, Decoding.mk.injEq] at h
      obtain ⟨rfl, rfl, rfl⟩ := h
      exact ⟨.absent, trivial, trivial, by simp [write], by simp [column], rfl⟩
    | true =>
      simp only [Bool.not_true, Bool.false_eq_true, if_false, bind_eq_some_iff, Prod.exists,
        ite_none_left_eq_some, not_or, Nat.not_lt] at h
      obtain ⟨kind, r₃, hk, hkind, known, r₄, hf, h⟩ := h
      obtain ⟨rfl, -⟩ := hframe.mp hk
      obtain rfl := readFlag_iff.mp hf
      cases known with
      | false =>
        simp only [Bool.not_false, if_true, Option.some.injEq, Decoding.mk.injEq] at h
        obtain ⟨rfl, rfl, rfl⟩ := h
        exact ⟨.present kind none, hkind, trivial, by simp [write], rfl, rfl⟩
      | true =>
        simp only [Bool.not_true, Bool.false_eq_true, if_false, bind_eq_some_iff, Prod.exists,
          Option.some.injEq, Decoding.mk.injEq] at h
        obtain ⟨value, r₅, hv, rfl, rfl, rfl⟩ := h
        obtain ⟨rfl, hlen⟩ := hframe.mp hv
        exact ⟨.present kind (some value), hkind, hlen, by simp [write], rfl, rfl⟩
  · rintro ⟨e, htype, hvalue, hr, hc, hv⟩
    have hn : ∀ r, readFrame maxEvidenceBytes (frame name ++ r) = some (name, r) :=
      fun r => hframe.mpr ⟨rfl, hname⟩
    have hflag : ∀ b r, readFlag (flag b ++ r) = some (b, r) := fun _ _ => readFlag_iff.mpr rfl
    simp only at hr hc hv
    subst hr hc hv
    cases e with
    | absent => simp [decodeField, write, column, store, List.append_assoc, hn, hflag]
    | present kind value =>
      obtain ⟨hne, hlen⟩ := htype
      have hk : ∀ r, readFrame maxEvidenceBytes (frame kind ++ r) = some (kind, r) :=
        fun r => hframe.mpr ⟨rfl, hlen.trans (by decide)⟩
      cases value with
      | none =>
        simp [decodeField, write, column, store, List.append_assoc, hn, hflag, hk,
          hne, Nat.not_lt.mpr hlen]
      | some value =>
        have hval : ∀ r, readFrame maxEvidenceBytes (frame value ++ r) = some (value, r) :=
          fun r => hframe.mpr ⟨rfl, hvalue⟩
        simp [decodeField, write, column, store, List.append_assoc, hn, hflag, hk,
          hval, hne, Nat.not_lt.mpr hlen]

/-! ### All fields -/

def writeAll (ps : List (Bytes × Entry)) : Bytes := ps.flatMap fun p => p.2.write p.1

def columnsOf (ps : List (Bytes × Entry)) : List Column := ps.flatMap fun p => p.2.column p.1

def storeAll (values : Values) (ps : List (Bytes × Entry)) : Values :=
  ps.foldl (fun values p => p.2.store p.1 values) values

theorem encodeFields_some
    {names : List Bytes} {b b' : Bytes} (h : names.foldlM (encodeField types values) b = some b') :
    ∃ ps : List (Bytes × Entry), ps.map Prod.fst = names ∧
      (∀ p ∈ ps, entryOf types values p.1 = some p.2 ∧ p.2.ValueOk) ∧ b' = b ++ writeAll ps := by
  induction names generalizing b with
  | nil =>
    simp only [List.foldlM_nil, pure_def, Option.some.injEq] at h
    exact ⟨[], rfl, by simp, by simp [writeAll, h]⟩
  | cons name rest ih =>
    simp only [List.foldlM_cons, bind_eq_bind, bind_eq_some_iff] at h
    obtain ⟨b₁, h₁, h⟩ := h
    obtain ⟨e, he, hval, rfl, -⟩ := encodeField_iff.mp h₁
    obtain ⟨ps, rfl, hps, rfl⟩ := ih h
    refine ⟨(name, e) :: ps, rfl, ?_, by simp [writeAll]⟩
    intro p hp
    rcases List.mem_cons.mp hp with rfl | hp
    · exact ⟨he, hval⟩
    · exact hps p hp

/-- The encoder's own bound: a length is looked at only after a present field. -/
def Bounded (b : Bytes) : List (Bytes × Entry) → Prop
  | [] => True
  | p :: ps => (p.2 ≠ .absent → (b ++ p.2.write p.1).length ≤ maxEvidenceBytes) ∧
      Bounded (b ++ p.2.write p.1) ps

variable {ps : List (Bytes × Entry)}

theorem bounded_of_le {b : Bytes} (h : (b ++ writeAll ps).length ≤ maxEvidenceBytes) : Bounded b ps := by
  induction ps generalizing b with
  | nil => trivial
  | cons p ps ih =>
    simp only [writeAll, List.flatMap_cons, List.length_append] at h
    refine ⟨fun _ => by rw [List.length_append]; omega, ih ?_⟩
    simp only [writeAll, List.length_append]
    omega

theorem bounded_absent {b : Bytes} (h : ∀ p ∈ ps, p.2 = .absent) : Bounded b ps := by
  induction ps generalizing b with
  | nil => trivial
  | cons p ps ih =>
    exact ⟨fun hne => absurd (h p (List.mem_cons_self ..)) hne,
      ih fun q hq => h q (List.mem_cons_of_mem p hq)⟩

theorem encodeFields_of {b : Bytes}
    (h : ∀ p ∈ ps, entryOf types values p.1 = some p.2 ∧ p.2.ValueOk) (hb : Bounded b ps) :
    (ps.map Prod.fst).foldlM (encodeField types values) b = some (b ++ writeAll ps) := by
  induction ps generalizing b with
  | nil => simp [writeAll]
  | cons p ps ih =>
    obtain ⟨he, hval⟩ := h p (List.mem_cons_self ..)
    have hstep : encodeField types values b p.1 = some (b ++ p.2.write p.1) :=
      encodeField_iff.mpr ⟨p.2, he, hval, rfl, hb.1⟩
    have hrest := ih (fun q hq => h q (List.mem_cons_of_mem p hq)) hb.2
    simp only [List.map_cons, List.foldlM_cons, bind_eq_bind, hstep, bind_some, hrest]
    simp [writeAll]

theorem decodeFields_iff {names : List Bytes} (hn : ∀ n ∈ names, n.length ≤ maxEvidenceBytes)
    {d d' : Decoding} :
    names.foldlM decodeField d = some d' ↔
      ∃ ps : List (Bytes × Entry), ps.map Prod.fst = names ∧
        (∀ p ∈ ps, p.2.TypeOk ∧ p.2.ValueOk) ∧ d.reader = writeAll ps ++ d'.reader ∧
        d'.columns = d.columns ++ columnsOf ps ∧ d'.values = storeAll d.values ps := by
  induction names generalizing d with
  | nil =>
    simp only [List.foldlM_nil, pure_def, Option.some.injEq, List.map_eq_nil_iff,
      exists_eq_left]
    constructor
    · rintro rfl
      simp [writeAll, columnsOf, storeAll]
    · rintro ⟨-, hr, hc, hv⟩
      obtain ⟨columns, values, reader⟩ := d
      obtain ⟨columns', values', reader'⟩ := d'
      simp_all [writeAll, columnsOf, storeAll]
  | cons name rest ih =>
    have hname := hn name (List.mem_cons_self ..)
    have hrest := fun n h => hn n (List.mem_cons_of_mem name h)
    simp only [List.foldlM_cons, bind_eq_bind, bind_eq_some_iff]
    constructor
    · rintro ⟨d₁, h₁, h⟩
      obtain ⟨e, ht, hv, hr, hc, hvals⟩ := (decodeField_iff hname).mp h₁
      obtain ⟨ps, rfl, hps, hr', hc', hvals'⟩ := (ih hrest).mp h
      refine ⟨(name, e) :: ps, rfl, ?_, ?_, ?_, ?_⟩
      · intro p hp
        rcases List.mem_cons.mp hp with rfl | hp
        · exact ⟨ht, hv⟩
        · exact hps p hp
      · rw [hr, hr']
        simp [writeAll]
      · rw [hc', hc]
        simp [columnsOf]
      · rw [hvals', hvals]
        rfl
    · rintro ⟨ps, hmap, hps, hr, hc, hvals⟩
      obtain ⟨p, ps, rfl, rfl, rfl⟩ := List.map_eq_cons_iff.mp hmap
      obtain ⟨ht, hv⟩ := hps p (List.mem_cons_self ..)
      refine ⟨⟨d.columns ++ p.2.column p.1, p.2.store p.1 d.values, writeAll ps ++ d'.reader⟩,
        (decodeField_iff hname).mpr ⟨p.2, ht, hv, ?_, rfl, rfl⟩, (ih hrest).mpr
        ⟨ps, rfl, fun q hq => hps q (List.mem_cons_of_mem p hq), rfl, ?_, ?_⟩⟩
      · rw [hr]
        simp [writeAll]
      · rw [hc]
        simp [columnsOf]
      · rw [hvals]
        rfl

/-! ### The schema -/

/-- The type the schema gives a name. -/
def typeOf (columns : List Column) (name : Bytes) : Option Bytes :=
  (columns.find? (·.name == name)).map Column.type

def Column.Ok (c : Column) : Prop :=
  c.name ≠ [] ∧ c.type ≠ [] ∧ c.name.length ≤ 4096 ∧ c.type.length ≤ 4096

theorem addColumn_iff {types types' : Finmap fun _ : Bytes => Bytes} {c : Column} :
    addColumn types c = some types' ↔
      c.Ok ∧ c.name ∉ types ∧ types' = types.insert c.name c.type := by
  simp only [addColumn, Column.Ok, ite_none_left_eq_some, Option.some.injEq, not_or,
    Nat.not_lt, ne_eq]
  constructor
  · rintro ⟨hok, hnew, rfl⟩
    exact ⟨hok, hnew, rfl⟩
  · rintro ⟨hok, hnew, rfl⟩
    exact ⟨hok, hnew, rfl⟩

variable {columns : List Column}

/-- The schema is accepted exactly when its columns are sound and its names distinct. -/
theorem addColumns_iff {types types' : Finmap fun _ : Bytes => Bytes} :
    columns.foldlM addColumn types = some types' ↔
      (∀ c ∈ columns, c.Ok ∧ c.name ∉ types) ∧ (columns.map Column.name).Nodup ∧
        types' = columns.foldl (fun types c => types.insert c.name c.type) types := by
  induction columns generalizing types with
  | nil =>
    simp only [List.foldlM_nil, pure_def, Option.some.injEq, List.foldl_nil]
    exact ⟨fun h => ⟨by simp, by simp, h.symm⟩, fun h => h.2.2.symm⟩
  | cons c rest ih =>
    simp only [List.foldlM_cons, bind_eq_bind, bind_eq_some_iff, List.map_cons,
      List.nodup_cons, List.foldl_cons]
    constructor
    · rintro ⟨types₁, h₁, h⟩
      obtain ⟨hok, hnew, rfl⟩ := addColumn_iff.mp h₁
      obtain ⟨hrest, hnodup, rfl⟩ := ih.mp h
      refine ⟨?_, ⟨?_, hnodup⟩, rfl⟩
      · intro x hx
        rcases List.mem_cons.mp hx with rfl | hx
        · exact ⟨hok, hnew⟩
        · exact ⟨(hrest x hx).1, fun hm => (hrest x hx).2 (mem_insert.mpr (.inr hm))⟩
      · intro hm
        obtain ⟨x, hx, hname⟩ := List.mem_map.mp hm
        exact (hrest x hx).2 (mem_insert.mpr (.inl hname))
    · rintro ⟨hall, ⟨hfresh, hnodup⟩, rfl⟩
      obtain ⟨hok, hnew⟩ := hall c (List.mem_cons_self ..)
      refine ⟨_, addColumn_iff.mpr ⟨hok, hnew, rfl⟩, ih.mpr ⟨?_, hnodup, rfl⟩⟩
      intro x hx
      refine ⟨(hall x (List.mem_cons_of_mem c hx)).1, fun hm => ?_⟩
      rcases mem_insert.mp hm with hname | hm
      · exact hfresh (hname ▸ List.mem_map_of_mem hx)
      · exact (hall x (List.mem_cons_of_mem c hx)).2 hm

theorem typeOf_eq_none (h : name ∉ columns.map Column.name) : typeOf columns name = none := by
  rw [typeOf, map_eq_none_iff, List.find?_eq_none]
  intro c hc hname
  exact h (List.mem_map.mpr ⟨c, hc, by simpa using hname⟩)

theorem lookup_types (hn : (columns.map Column.name).Nodup)
    (types : Finmap fun _ : Bytes => Bytes) (name : Bytes) :
    (columns.foldl (fun types c => types.insert c.name c.type) types).lookup name =
      (typeOf columns name).or (types.lookup name) := by
  induction columns generalizing types with
  | nil => simp [typeOf]
  | cons c rest ih =>
    obtain ⟨hfresh, hrest⟩ := List.nodup_cons.mp hn
    rw [List.foldl_cons, ih hrest]
    by_cases hname : c.name = name
    · subst hname
      rw [typeOf_eq_none hfresh]
      simp [typeOf]
    · rw [lookup_insert_of_ne _ (Ne.symm hname)]
      simp [typeOf, hname]

theorem typeOf_ok (h : ∀ c ∈ columns, c.Ok) {name kind : Bytes}
    (ht : typeOf columns name = some kind) : kind ≠ [] ∧ kind.length ≤ 4096 := by
  obtain ⟨c, hc, rfl⟩ := map_eq_some_iff.mp ht
  have hok := h c (List.mem_of_find?_eq_some hc)
  exact ⟨hok.2.1, hok.2.2.2⟩

/-! ### Reading entries back -/

def Entry.kind : Entry → Option Bytes
  | .absent => none
  | .present kind _ => some kind

def Entry.value : Entry → Option (Option Bytes)
  | .absent => none
  | .present _ value => some value

theorem entryOf_eq_some {e : Entry} : entryOf types values name = some e ↔
      types.lookup name = e.kind ∧ values.lookup name = e.value := by
  unfold entryOf
  cases types.lookup name <;> cases values.lookup name <;> cases e <;>
    simp [kind, value]

theorem mem_columnsOf (h : name ∈ (columnsOf ps).map Column.name) : name ∈ ps.map Prod.fst := by
  obtain ⟨c, hc, rfl⟩ := List.mem_map.mp h
  obtain ⟨p, hp, hc⟩ := List.mem_flatMap.mp hc
  refine List.mem_map.mpr ⟨p, hp, ?_⟩
  cases he : p.2 with
  | absent => simp [he, column] at hc
  | present kind value =>
    simp only [he, column, List.mem_singleton] at hc
    rw [hc]

theorem columnsOf_nodup (h : (ps.map Prod.fst).Nodup) : ((columnsOf ps).map Column.name).Nodup := by
  induction ps with
  | nil => simp [columnsOf]
  | cons p ps ih =>
    obtain ⟨hfresh, hrest⟩ := List.nodup_cons.mp h
    have hps := ih hrest
    cases he : p.2 with
    | absent => simpa [columnsOf, he, column] using hps
    | present kind value =>
      have hsplit : columnsOf (p :: ps) = ⟨p.1, kind⟩ :: columnsOf ps := by
        simp [columnsOf, he, column]
      rw [hsplit, List.map_cons, List.nodup_cons]
      exact ⟨fun hm => hfresh (mem_columnsOf hm), hps⟩

theorem typeOf_columnsOf (h : (ps.map Prod.fst).Nodup)
    {p : Bytes × Entry} (hp : p ∈ ps) : typeOf (columnsOf ps) p.1 = p.2.kind := by
  induction ps with
  | nil => cases hp
  | cons q ps ih =>
    obtain ⟨hfresh, hrest⟩ := List.nodup_cons.mp h
    have hsplit : columnsOf (q :: ps) = q.2.column q.1 ++ columnsOf ps := by simp [columnsOf]
    rcases List.mem_cons.mp hp with rfl | hp
    · have hnone := typeOf_eq_none fun hm => hfresh (mem_columnsOf hm)
      rw [hsplit]
      cases he : p.2 with
      | absent => simpa [column, kind] using hnone
      | present kind value => simp [Entry.column, Entry.kind, typeOf]
    · have hne : q.1 ≠ p.1 := fun he => hfresh (he ▸ List.mem_map_of_mem hp)
      rw [← ih hrest hp, hsplit]
      cases he : q.2 with
      | absent => simp [column]
      | present kind value => simp [column, typeOf, hne]

theorem lookup_storeAll_of_notMem (h : name ∉ ps.map Prod.fst) (values : Values) :
    (storeAll values ps).lookup name = values.lookup name := by
  induction ps generalizing values with
  | nil => rfl
  | cons p ps ih =>
    simp only [List.map_cons, List.mem_cons, not_or] at h
    rw [storeAll, List.foldl_cons, ← storeAll, ih h.2]
    cases he : p.2 with
    | absent => rfl
    | present kind value => exact lookup_insert_of_ne _ h.1

theorem lookup_storeAll (h : (ps.map Prod.fst).Nodup)
    {p : Bytes × Entry} (hp : p ∈ ps) (hv : values.lookup p.1 = none) :
    (storeAll values ps).lookup p.1 = p.2.value := by
  induction ps generalizing values with
  | nil => cases hp
  | cons q ps ih =>
    obtain ⟨hfresh, hrest⟩ := List.nodup_cons.mp h
    rw [storeAll, List.foldl_cons, ← storeAll]
    rcases List.mem_cons.mp hp with rfl | hp
    · rw [lookup_storeAll_of_notMem hfresh]
      cases he : p.2 with
      | absent => exact hv
      | present kind value => exact lookup_insert _
    · have hne : p.1 ≠ q.1 := fun he => hfresh (he ▸ List.mem_map_of_mem hp)
      refine ih hrest hp ?_
      cases he : q.2 with
      | absent => exact hv
      | present kind value => rw [store, lookup_insert_of_ne _ hne, hv]

theorem columnsOf_ok
    (h : ∀ p ∈ ps, p.1 ≠ [] ∧ p.1.length ≤ 4096 ∧ p.2.TypeOk) : ∀ c ∈ columnsOf ps, c.Ok := by
  intro c hc
  obtain ⟨p, hp, hc⟩ := List.mem_flatMap.mp hc
  obtain ⟨hne, hlen, htype⟩ := h p hp
  cases he : p.2 with
  | absent => simp [he, column] at hc
  | present kind value =>
    simp only [he, column, List.mem_singleton] at hc
    rw [he] at htype
    rw [hc]
    exact ⟨hne, htype.1, hlen, htype.2⟩

theorem evidenceFields_nodup : evidenceFields.Nodup := by decide

theorem evidenceFields_ok : ∀ n ∈ evidenceFields, n ≠ [] ∧ n.length ≤ 4096 := by decide

/-! ### The whole codec -/

section Roundtrip
variable {sha256 : Bytes → Hash}

variable {columns : List Column} {values : Values}

/-- What an encoding that succeeds knows and writes. -/
theorem encodeEvidence_some {schemaHash : Hash}
    {e : Evidence} (h : encodeEvidence sha256 columns values schemaHash = some e) :
    schemaHash ≠ Hash.zero ∧ (∀ c ∈ columns, c.Ok) ∧
      ∃ ps : List (Bytes × Entry), ps.map Prod.fst = evidenceFields ∧
        (∀ p ∈ ps, typeOf columns p.1 = p.2.kind ∧ values.lookup p.1 = p.2.value ∧ p.2.ValueOk) ∧
        e = ⟨evidenceCodecVersion, schemaHash, magic ++ writeAll ps,
          evidenceHash sha256 evidenceCodecVersion schemaHash (magic ++ writeAll ps)⟩ := by
  simp only [encodeEvidence, ite_none_left_eq_some, bind_eq_bind,
    bind_eq_some_iff, Option.some.injEq] at h
  obtain ⟨hhash, types, htypes, payload, hpayload, rfl⟩ := h
  obtain ⟨hok, hnodup, rfl⟩ := addColumns_iff.mp htypes
  obtain ⟨ps, hmap, hps, rfl⟩ := encodeFields_some hpayload
  refine ⟨hhash, fun c hc => (hok c hc).1, ps, hmap, fun p hp => ?_, rfl⟩
  obtain ⟨hentry, hval⟩ := hps p hp
  obtain ⟨hkind, hvalue⟩ := entryOf_eq_some.mp hentry
  rw [lookup_types hnodup, lookup_empty, or_none] at hkind
  exact ⟨hkind, hvalue, hval⟩

variable {ps : List (Bytes × Entry)}

theorem encodeEvidence_of {schemaHash : Hash} (hhash : schemaHash ≠ Hash.zero) (hok : ∀ c ∈ columns, c.Ok)
    (hnodup : (columns.map Column.name).Nodup) (hmap : ps.map Prod.fst = evidenceFields)
    (hps : ∀ p ∈ ps, typeOf columns p.1 = p.2.kind ∧ values.lookup p.1 = p.2.value ∧ p.2.ValueOk)
    (hb : Bounded magic ps) :
    encodeEvidence sha256 columns values schemaHash =
      some ⟨evidenceCodecVersion, schemaHash, magic ++ writeAll ps,
        evidenceHash sha256 evidenceCodecVersion schemaHash (magic ++ writeAll ps)⟩ := by
  have htypes : columns.foldlM addColumn ∅ =
      some (columns.foldl (fun types c => types.insert c.name c.type) ∅) :=
    addColumns_iff.mpr ⟨fun c hc => ⟨hok c hc, notMem_empty⟩, hnodup, rfl⟩
  have hentries : ∀ p ∈ ps, entryOf
      (columns.foldl (fun types c => types.insert c.name c.type) ∅) values p.1 = some p.2 ∧
        p.2.ValueOk := by
    intro p hp
    obtain ⟨hkind, hvalue, hval⟩ := hps p hp
    refine ⟨entryOf_eq_some.mpr ⟨?_, hvalue⟩, hval⟩
    rw [lookup_types hnodup, lookup_empty, or_none, hkind]
  have hfields := encodeFields_of hentries hb
  rw [hmap] at hfields
  simp only [encodeEvidence, if_neg hhash, bind_eq_bind, htypes, bind_some, hfields]

theorem decodeEvidence_iff {e : Evidence} : decodeEvidence sha256 e = some (columns, values) ↔
      e.codecVersion = evidenceCodecVersion ∧ e.sourceSchemaHash ≠ Hash.zero ∧
      e.payload.length ≤ maxEvidenceBytes ∧
      e.hash = evidenceHash sha256 e.codecVersion e.sourceSchemaHash e.payload ∧
      ∃ ps : List (Bytes × Entry), ps.map Prod.fst = evidenceFields ∧
        (∀ p ∈ ps, p.2.TypeOk ∧ p.2.ValueOk) ∧ e.payload = magic ++ writeAll ps ∧
        columns = columnsOf ps ∧ values = storeAll ∅ ps := by
  have hfields : ∀ n ∈ evidenceFields, n.length ≤ maxEvidenceBytes := fun n hn =>
    (evidenceFields_ok n hn).2.trans (by decide)
  simp only [decodeEvidence, ite_none_left_eq_some, not_or, ne_eq, Decidable.not_not,
    Nat.not_lt, bind_eq_bind, bind_eq_some_iff, ite_none_right_eq_some,
    Option.some.injEq, Prod.mk.injEq]
  constructor
  · rintro ⟨⟨hver, hschema, hlen, hhash⟩, hmagic, d, hd, hend, rfl, rfl⟩
    obtain ⟨ps, hmap, hps, hr, hc, hv⟩ := (decodeFields_iff hfields).mp hd
    refine ⟨hver, hschema, hlen, hhash, ps, hmap, hps, ?_, hc, hv⟩
    rw [hend, List.append_nil] at hr
    rw [← hr]
    conv_lhs => rw [← List.take_append_drop magic.length e.payload, hmagic]
  · rintro ⟨hver, hschema, hlen, hhash, ps, hmap, hps, hpay, rfl, rfl⟩
    refine ⟨⟨hver, hschema, hlen, hhash⟩, by rw [hpay, List.take_left], ⟨_, _, []⟩, ?_, rfl, rfl, rfl⟩
    refine (decodeFields_iff hfields).mpr ⟨ps, hmap, hps, ?_, rfl, rfl⟩
    rw [hpay, List.drop_left, List.append_nil]

/-- The columns of the schema that the codec keeps, in its order. -/
def whitelisted (columns : List Column) : List Column :=
  evidenceFields.filterMap fun name => (typeOf columns name).map (Column.mk name)

/-- The columns and values that a decoding of the schema and values should return. -/
def Preserves (columns : List Column) (values : Values) (out : List Column × Values) : Prop :=
  out.1 = whitelisted columns ∧ ∀ name, out.2.lookup name =
    if name ∈ evidenceFields ∧ (typeOf columns name).isSome then values.lookup name else none

/-- The bytes one field takes: its name and tag, and for a column of the schema
its type, its tag and its value. -/
def fieldSize (columns : List Column) (values : Values) (name : Bytes) : Nat :=
  8 + name.length + 1 +
    match typeOf columns name with
    | none => 0
    | some kind => 8 + kind.length + 1 +
      match values.lookup name with
      | some (some value) => 8 + value.length
      | _ => 0

/-- The bytes of the whole payload. -/
def encodedSize (columns : List Column) (values : Values) : Nat :=
  magic.length + (evidenceFields.map (fieldSize columns values)).sum

theorem length_write {p : Bytes × Entry}
    (hkind : typeOf columns p.1 = p.2.kind) (hvalue : values.lookup p.1 = p.2.value) :
    (p.2.write p.1).length = fieldSize columns values p.1 := by
  unfold fieldSize
  rw [hkind, hvalue]
  cases p.2 with
  | absent => simp [write, kind]
  | present kind value =>
    cases value with
    | none =>
      show _ = 8 + p.1.length + 1 + (8 + kind.length + 1 + 0)
      simp only [write, List.length_append, length_frame, length_flag]
      omega
    | some value =>
      show _ = 8 + p.1.length + 1 + (8 + kind.length + 1 + (8 + value.length))
      simp only [write, List.length_append, length_frame, length_flag]
      omega

theorem length_writeAll
    (h : ∀ p ∈ ps, typeOf columns p.1 = p.2.kind ∧ values.lookup p.1 = p.2.value ∧ p.2.ValueOk) :
    (writeAll ps).length = ((ps.map Prod.fst).map (fieldSize columns values)).sum := by
  induction ps with
  | nil => rfl
  | cons p ps ih =>
    obtain ⟨hkind, hvalue, -⟩ := h p (List.mem_cons_self ..)
    have hrest := ih fun q hq => h q (List.mem_cons_of_mem p hq)
    simp only [writeAll, List.flatMap_cons, List.length_append, List.map_cons, List.sum_cons] at hrest ⊢
    rw [length_write hkind hvalue, hrest]

theorem columnsOf_eq (h : ∀ p ∈ ps, typeOf columns p.1 = p.2.kind) :
    columnsOf ps = (ps.map Prod.fst).filterMap fun name =>
      (typeOf columns name).map (Column.mk name) := by
  induction ps with
  | nil => rfl
  | cons p ps ih =>
    have hp := h p (List.mem_cons_self ..)
    have hrest := ih fun q hq => h q (List.mem_cons_of_mem p hq)
    have hsplit : columnsOf (p :: ps) = p.2.column p.1 ++ columnsOf ps := by simp [columnsOf]
    rw [hsplit, hrest, List.map_cons, List.filterMap_cons, hp]
    cases p.2 with
    | absent => rfl
    | present kind value => rfl

/-- The entries an encoding wrote are read back as what it was given. -/
theorem entries_preserve (hmap : ps.map Prod.fst = evidenceFields)
    (hps : ∀ p ∈ ps, typeOf columns p.1 = p.2.kind ∧ values.lookup p.1 = p.2.value ∧ p.2.ValueOk) :
    Preserves columns values (columnsOf ps, storeAll ∅ ps) := by
  have hnodup : (ps.map Prod.fst).Nodup := hmap ▸ evidenceFields_nodup
  refine ⟨?_, fun name => ?_⟩
  · show columnsOf ps = whitelisted columns
    rw [columnsOf_eq fun p hp => (hps p hp).1, hmap]
    rfl
  · show (storeAll ∅ ps).lookup name = _
    by_cases hname : name ∈ evidenceFields
    · rw [← hmap] at hname
      obtain ⟨p, hp, rfl⟩ := List.mem_map.mp hname
      obtain ⟨hkind, hvalue, -⟩ := hps p hp
      rw [lookup_storeAll hnodup hp (lookup_empty _), hkind, hvalue, ← hmap]
      cases p.2 with
      | absent => simp [value, kind]
      | present kind value => simp [Entry.value, Entry.kind, List.mem_map_of_mem hp]
    · rw [lookup_storeAll_of_notMem (hmap ▸ hname), lookup_empty, if_neg (fun h => hname h.1)]

/-- **When evidence can be read back.** An encoding that succeeds is decoded to
what was encoded exactly when the whole payload fits; and whatever is decoded is
encoded to the same bytes again. -/
theorem evidence_decodes_iff (sha256 : Bytes → Hash) :
    (∀ columns values schemaHash e, encodeEvidence sha256 columns values schemaHash = some e →
      ((∃ out, decodeEvidence sha256 e = some out ∧ Preserves columns values out) ↔
        encodedSize columns values ≤ maxEvidenceBytes)) ∧
    ∀ e columns values, decodeEvidence sha256 e = some (columns, values) →
      ∃ e', encodeEvidence sha256 columns values e.sourceSchemaHash = some e' ∧
        e'.payload = e.payload ∧ e'.hash = e.hash := by
  refine ⟨?_, ?_⟩
  · intro columns values schemaHash e h
    obtain ⟨hhash, hok, ps, hmap, hps, rfl⟩ := encodeEvidence_some h
    have hsize : (magic ++ writeAll ps).length = encodedSize columns values := by
      rw [List.length_append, length_writeAll hps, hmap]
      rfl
    rw [← hsize]
    constructor
    · rintro ⟨⟨columns', values'⟩, hout, -⟩
      exact (decodeEvidence_iff.mp hout).2.2.1
    · intro hlen
      refine ⟨_, decodeEvidence_iff.mpr ⟨rfl, hhash, hlen, rfl, ps, hmap, ?_, rfl, rfl, rfl⟩,
        entries_preserve hmap hps⟩
      intro p hp
      obtain ⟨hkind, -, hval⟩ := hps p hp
      refine ⟨?_, hval⟩
      cases he : p.2 with
      | absent => trivial
      | present kind value => exact typeOf_ok hok (hkind.trans (by rw [he]; rfl))
  · intro e columns values h
    obtain ⟨hver, hschema, hlen, hhash, ps, hmap, hps, hpay, rfl, rfl⟩ := decodeEvidence_iff.mp h
    have hnodup : (ps.map Prod.fst).Nodup := hmap ▸ evidenceFields_nodup
    have hcols : ∀ c ∈ columnsOf ps, c.Ok := columnsOf_ok fun p hp => by
      have hname := evidenceFields_ok p.1 (hmap ▸ List.mem_map_of_mem hp)
      exact ⟨hname.1, hname.2, (hps p hp).1⟩
    have hentries : ∀ p ∈ ps, typeOf (columnsOf ps) p.1 = p.2.kind ∧
        (storeAll ∅ ps).lookup p.1 = p.2.value ∧ p.2.ValueOk := fun p hp =>
      ⟨typeOf_columnsOf hnodup hp, lookup_storeAll hnodup hp (lookup_empty _), (hps p hp).2⟩
    refine ⟨_, encodeEvidence_of hschema hcols (columnsOf_nodup hnodup) hmap hentries
      (bounded_of_le (hpay ▸ hlen)), hpay.symm, ?_⟩
    rw [hhash, hver, hpay]

/-- A schema in which `group` comes before `id`, and `ip` is none of the fields. -/
def rowColumns : List Column :=
  [("group", "varchar"), ("ip", "varchar"), ("id", "bigint"), ("other", "text")].map fun c => ⟨ascii c.1, ascii c.2⟩

/-- A NULL and an empty text. -/
def rowValues : Values :=
  (((∅ : Values).insert (ascii "id") (some (ascii "42"))).insert (ascii "group") none).insert (ascii "other") (some [])

theorem evidence_decodes_row :
    ∃ e, encodeEvidence (fun _ => Hash.zero) rowColumns rowValues (Vector.replicate 32 1) = some e ∧
      ∃ out, decodeEvidence (fun _ => Hash.zero) e = some out ∧ Preserves rowColumns rowValues out := by
  have hok : (encodeEvidence (fun _ => Hash.zero) rowColumns rowValues (Vector.replicate 32 1)).isSome = true := by
    decide +kernel
  obtain ⟨e, he⟩ := isSome_iff_exists.mp hok
  exact ⟨e, he, ((evidence_decodes_iff _).1 _ _ _ e he).mpr (by decide)⟩

/-! ### Where the two bounds part -/

/-- A schema without its last fields, and a value that takes the payload up to the
bound: the absent fields go past it unseen. -/
theorem encodes_past_bound {value : Bytes} (hlen : value.length = 67108813) :
    ∃ e, encodeEvidence (fun _ => Hash.zero) [⟨ascii "id", ascii "int"⟩]
        (Finmap.singleton (ascii "id") (some value)) (Vector.replicate 32 1) = some e ∧
      decodeEvidence (fun _ => Hash.zero) e = none := by
  have hmagic : magic.length = 20 := by decide
  have hid : (ascii "id").length = 2 := by decide
  have hint : (ascii "int").length = 3 := by decide
  have hrest : ∀ name ∈ evidenceFields.tail, ascii "id" ≠ name := by decide
  have hfields : evidenceFields = ascii "id" :: evidenceFields.tail := rfl
  have hps : ∀ p ∈ (ascii "id", present (ascii "int") (some value)) ::
      evidenceFields.tail.map (fun name => (name, absent)),
      typeOf [⟨ascii "id", ascii "int"⟩] p.1 = p.2.kind ∧
        (Finmap.singleton (ascii "id") (some value) : Values).lookup p.1 = p.2.value ∧
        p.2.ValueOk := by
    intro p hp
    rcases List.mem_cons.mp hp with rfl | hp
    · refine ⟨rfl, lookup_singleton_eq, ?_⟩
      show value.length ≤ maxEvidenceBytes
      rw [hlen]
      decide
    · obtain ⟨name, hname, rfl⟩ := List.mem_map.mp hp
      have hne := hrest name hname
      refine ⟨by simp [typeOf, hne, kind], ?_, trivial⟩
      rw [lookup_eq_none.mpr (fun hm => hne (mem_singleton _ _ _ |>.mp hm).symm)]
      rfl
  have hbound : Bounded magic ((ascii "id", present (ascii "int") (some value)) ::
      evidenceFields.tail.map (fun name => (name, absent))) := by
    refine ⟨fun _ => ?_, bounded_absent fun p hp => ?_⟩
    · simp only [write, List.length_append, length_frame, length_flag, hmagic, hid, hint, hlen]
      decide
    · obtain ⟨name, -, rfl⟩ := List.mem_map.mp hp
      rfl
  have hok : ∀ c ∈ [(⟨ascii "id", ascii "int"⟩ : Column)], c.Ok := by
    intro c hc
    rw [List.mem_singleton.mp hc]
    exact ⟨by decide, by decide, by decide, by decide⟩
  have hmap : ((ascii "id", present (ascii "int") (some value)) ::
      evidenceFields.tail.map (fun name => (name, absent))).map Prod.fst = evidenceFields := by
    rw [List.map_cons, List.map_map, hfields]
    simp [Function.comp_def]
  refine ⟨_, encodeEvidence_of (by decide) hok (by decide) hmap hps hbound, ?_⟩
  -- The field that is present reaches the bound, and absent ones follow it.
  have hpast : ¬ (magic ++ writeAll ((ascii "id", present (ascii "int") (some value)) ::
      evidenceFields.tail.map (fun name => (name, absent)))).length ≤ maxEvidenceBytes := by
    have htail : 0 < (writeAll (evidenceFields.tail.map fun name => (name, absent))).length := by
      have hcons : evidenceFields.tail = ascii "created_at" :: evidenceFields.tail.tail := rfl
      rw [hcons]
      simp only [writeAll, List.map_cons, List.flatMap_cons, List.length_append, write,
        length_frame]
      omega
    have hsplit : ∀ ps, writeAll ((ascii "id", present (ascii "int") (some value)) :: ps) =
        write (ascii "id") (.present (ascii "int") (some value)) ++ writeAll ps := fun _ => rfl
    simp only [hsplit, List.length_append, write, length_frame, length_flag, hmagic, hid, hint,
      hlen, maxEvidenceBytes]
    omega
  cases hd : decodeEvidence (fun _ => Hash.zero) _ with
  | none => rfl
  | some out => exact absurd (decodeEvidence_iff.mp hd).2.2.1 hpast

/-- A payload that was written and cannot be read back. -/
theorem evidence_not_decoded : ∃ e, encodeEvidence (fun _ => Hash.zero) [⟨ascii "id", ascii "int"⟩]
        (Finmap.singleton (ascii "id") (some (List.replicate 67108813 0))) (Vector.replicate 32 1) =
          some e ∧
      decodeEvidence (fun _ => Hash.zero) e = none :=
  encodes_past_bound List.length_replicate

end Roundtrip

end ControlTower.Facts
