import Mathlib.Algebra.Ring.Nat
import Mathlib.Data.List.Nodup
import ControlTower.Archive.LargeDigest

/-! A streamed row is the ordinary row.

At every moment of a transfer the hash has been fed what `rowHash` feeds it up to the
column and the offset that were reached: the header of a column is written with its first
chunk and only then, since the offset is zero at no other chunk. So turns can end anywhere,
and the last one ends with the digest of the whole row. -/
namespace ControlTower.Archive
open Go Data List Option LargeTransfer

/-! ### What is hashed of a column -/

/-- The name, the tag and the length of a column. -/
def Field.header (f : Field) : Bytes :=
  frame f.name ++ if f.value.isNone then [0] else 1 :: putUint 8 f.content.length

/-- All that is hashed of a column. -/
def Field.encode (f : Field) : Bytes := f.header ++ f.content

/-- The bytes of a column of a row. -/
def content (fields : List Field) (column : Nat) : Bytes := (fields[column]?).elim [] Field.content

/-- What is hashed before a column and an offset: the header belongs to the first byte. -/
def written (fields : List Field) (column offset : Nat) : Bytes :=
  (fields.take column).flatMap Field.encode ++
    if offset = 0 then []
    else (fields[column]?).elim [] Field.header ++ (content fields column).take offset

section Hash
variable {S : Type} (h : Incremental UInt8 S Bytes)

theorem hashField_eq (s : S) (value : Bytes) : hashField h s value = h.write s (frame value) :=
  (h.write_append _ _ _).symm

theorem rowHash_eq (row : List Field) :
    rowHash h row = h.digest (h.after ((sorted row).flatMap Field.encode)) := by
  rw [rowHash, ← h.after_nil, h.foldl_write _ Field.encode, nil_append]
  intro s f
  cases hv : f.value with
  | none => simp [Field.encode, Field.header, Field.content, hv, hashField_eq, h.write_append]
  | some v =>
    simp [Field.encode, Field.header, Field.content, hv, hashField_eq, frame, ← h.write_append]

theorem hashFieldHeader_eq (s : S) (f : Field) :
    hashFieldHeader h s ⟨f.name, f.content.length, f.value.isNone⟩ = h.write s f.header := by
  cases hv : f.value.isNone <;> simp [hashFieldHeader, Field.header, frame, hv, ← h.write_append]

end Hash

variable {fields : List Field} {column : Nat} {f : Field}

theorem content_of_get (hf : fields[column]? = some f) : content fields column = f.content := by
  rw [content, hf]
  rfl

theorem written_zero (fields : List Field) (column : Nat) :
    written fields column 0 = (fields.take column).flatMap Field.encode := by
  simp [written]

/-- A column is complete once all of its bytes are. -/
theorem written_end (hf : fields[column]? = some f) (hne : f.content ≠ []) :
    written fields column f.content.length = written fields (column + 1) 0 := by
  have hlen : f.content.length ≠ 0 := fun hl => hne (length_eq_zero_iff.mp hl)
  rw [written_zero, take_add_one, flatMap_append, hf, written, if_neg hlen, content_of_get hf,
    take_length]
  simp [hf, Field.encode]

theorem written_skip (hf : fields[column]? = some f) (he : f.content = []) :
    written fields column 0 ++ f.header = written fields (column + 1) 0 := by
  rw [written_zero, written_zero, take_add_one, flatMap_append, hf]
  simp [Field.encode, he]

theorem written_read (hf : fields[column]? = some f) (offset n : Nat) (hn : 0 < n) :
    (if offset = 0 then written fields column 0 ++ f.header else written fields column offset) ++
      (f.content.drop offset).take n =
      written fields column (offset + n) := by
  have hsum : offset + n ≠ 0 := by omega
  have htake : f.content.take offset ++ (f.content.drop offset).take n =
      f.content.take (offset + n) := take_add.symm
  by_cases ho : offset = 0
  · simp [written, ho, hf, content_of_get hf, Nat.ne_of_gt hn]
  · rw [if_neg ho, written, written, if_neg ho, if_neg hsum, content_of_get hf, ← htake]
    simp only [append_assoc]

/-! ### The chunks so far -/

/-- The order in which chunks are read. -/
def Chunk.Before (a b : Chunk) : Prop :=
  a.column < b.column ∨ a.column = b.column ∧ a.index < b.index

/-- The chunks of a transfer that has come to a column and an offset. -/
structure Kept (fields : List Field) (chunkBytes column offset : Nat) (chunks : List Chunk) :
    Prop where
  ordered : chunks.Pairwise Chunk.Before
  behind : ∀ c ∈ chunks, c.column < column ∨ c.column = column ∧ c.index * chunkBytes < offset
  data : ∀ i, (chunks.filter fun c => c.column == i).flatMap Chunk.data =
    if i < column then content fields i
    else if i = column then (content fields i).take offset else []

namespace Kept
variable {fields : List Field} {chunkBytes column offset : Nat} {chunks : List Chunk}

theorem start (fields : List Field) (chunkBytes : Nat) : Kept fields chunkBytes 0 0 [] where
  ordered := List.Pairwise.nil
  behind := fun c hc => absurd hc not_mem_nil
  data := by simp

variable (hk : Kept fields chunkBytes column offset chunks)
include hk

/-- A column whose bytes are all there is left behind. -/
theorem next (hall : (content fields column).length ≤ offset) :
    Kept fields chunkBytes (column + 1) 0 chunks where
  ordered := hk.ordered
  behind := by
    intro c hc
    have := hk.behind c hc
    omega
  data := by
    intro i
    rw [hk.data i]
    by_cases hi : i = column
    · rw [if_neg (by omega), if_pos hi, if_pos (by omega), hi, take_of_length_le hall]
    · by_cases hlt : i < column
      · rw [if_pos hlt, if_pos (by omega)]
      · simp only [hlt, hi, if_false, take_zero, ite_self]
        rw [if_neg (by omega)]

theorem read (haligned : chunkBytes ∣ offset) {n : Nat} (hn : 0 < n) :
    Kept fields chunkBytes column (offset + n) (chunks ++
      [⟨column, offset / chunkBytes, ((content fields column).drop offset).take n⟩]) where
  ordered := by
    rw [pairwise_append]
    refine ⟨hk.ordered, pairwise_singleton _ _, ?_⟩
    intro a ha b hb
    rw [mem_singleton.mp hb]
    rcases hk.behind a ha with hlt | ⟨heq, hidx⟩
    · exact Or.inl hlt
    · exact Or.inr ⟨heq, (Nat.lt_div_iff_mul_lt' haligned _).mpr (by rwa [Nat.mul_comm])⟩
  behind := by
    intro c hc
    rcases mem_append.mp hc with hc | hc
    · have := hk.behind c hc
      omega
    · rw [mem_singleton.mp hc]
      have hdiv : offset / chunkBytes * chunkBytes = offset := Nat.div_mul_cancel haligned
      exact Or.inr ⟨rfl, by show offset / chunkBytes * chunkBytes < offset + n; omega⟩
  data := by
    intro i
    rw [filter_append, flatMap_append, hk.data i]
    by_cases hi : i = column
    · rw [if_neg (by omega), if_pos hi, if_neg (by omega), if_pos hi, hi, take_add]
      simp
    · simp [hi, Ne.symm hi]

/-- The chunks of a column, put in order, are its bytes. -/
theorem reassemble {i : Nat} (hi : i < column) : reassemble chunks i = content fields i := by
  have hsorted : (chunks.filter fun c => c.column == i).Pairwise fun a b => a.index ≤ b.index := by
    have hfilter := hk.ordered.filter fun c => c.column == i
    refine hfilter.imp_of_mem ?_
    intro a b ha hb hab
    have hcol : a.column = i ∧ b.column = i :=
      ⟨by simpa using (mem_filter.mp ha).2, by simpa using (mem_filter.mp hb).2⟩
    rcases hab with hlt | ⟨_, hlt⟩ <;> omega
  rw [Archive.reassemble, hsorted.insertionSort_eq, hk.data i, if_pos hi]

omit hk

/-- No chunk is inserted twice. -/
theorem insert {stored : List Chunk} (hk : (stored ++ chunks).Pairwise Chunk.Before) :
    chunks.foldlM insertChunk stored = some (stored ++ chunks) := by
  induction chunks generalizing stored with
  | nil => simp
  | cons c chunks ih =>
    have hnew : (stored.any fun o => o.column == c.column && o.index == c.index) = false := by
      rw [List.any_eq_false]
      intro o ho heq
      have hbefore : o.Before c := (pairwise_append.mp hk).2.2 o ho c mem_cons_self
      simp only [Bool.and_eq_true, beq_iff_eq] at heq
      simp only [Chunk.Before] at hbefore
      omega
    have hk' : (stored ++ [c] ++ chunks).Pairwise Chunk.Before := by simpa using hk
    rw [foldlM_cons, insertChunk, hnew]
    show chunks.foldlM insertChunk (stored ++ [c]) = _
    rw [ih hk', append_assoc, singleton_append]

end Kept

/-! ### The loop of a turn -/

section Loop
variable {S : Type} (h : Incremental UInt8 S Bytes)

/-- What a transfer has come to, between two rounds of the loop. `before` are the chunks of
earlier turns. -/
structure Reached (fields : List Field) (chunkBytes : Nat) (before : List Chunk) (t : LargeTurn S) :
    Prop where
  column_le : t.column ≤ fields.length
  aligned : chunkBytes ∣ t.offset
  inside : t.offset = 0 ∨ t.offset < (content fields t.column).length
  hash : t.hash = h.after (written fields t.column t.offset)
  fieldHash : t.fieldHash = h.after ((content fields t.column).take t.offset)
  digests : t.fieldDigests.length = fields.length
  complete : ∀ i < t.column, content fields i ≠ [] →
    t.fieldDigests[i]? = some (h.digest (h.after (content fields i)))
  kept : Kept fields chunkBytes t.column t.offset (before ++ t.chunks)

/-- The bytes of values that have been read. -/
def LargeTurn.done (fields : List Field) (t : LargeTurn S) : Nat :=
  ((fields.take t.column).map fun f => f.content.length).sum + t.offset

theorem done_next {fields : List Field} {t : LargeTurn S} (t' : LargeTurn S) {f : Field}
    (hf : fields[t.column]? = some f)
    (hcol : t'.column = t.column + 1) (hoff : t'.offset = 0) :
      t'.done fields + t.offset = t.done fields + f.content.length := by
  simp only [LargeTurn.done, hcol, hoff, take_add_one, hf, toList_some, map_append, sum_append,
    map_cons, map_nil, sum_singleton]
  omega

variable {h} {fields : List Field} {chunkBytes : Nat} {before : List Chunk} {t : LargeTurn S}

/-- A column without bytes. -/
theorem Reached.skip (hr : Reached h fields chunkBytes before t) {f : Field}
    (hf : fields[t.column]? = some f) (he : f.content = []) :
    t.offset = 0 ∧ Reached h fields chunkBytes before
      { t with column := t.column + 1, hash := h.write t.hash f.header } := by
  have hcontent : content fields t.column = [] := (content_of_get hf).trans he
  have hzero : t.offset = 0 := by
    have := hr.inside
    rw [hcontent, length_nil] at this
    omega
  refine ⟨hzero, ?_⟩
  exact {
    column_le := (List.getElem?_eq_some_iff.mp hf).1
    aligned := hr.aligned
    inside := Or.inl hzero
    hash := by
      rw [hr.hash, h.write_after, hzero, written_skip hf he]
    fieldHash := by rw [hr.fieldHash, hzero, take_zero, take_zero]
    digests := hr.digests
    complete := by
      intro i hi hne
      refine hr.complete i ?_ hne
      have : i ≠ t.column := fun hi => hne (hi ▸ hcontent)
      show i < t.column
      have : i < t.column + 1 := hi
      omega
    kept := by
      have := hr.kept.next (hcontent ▸ Nat.zero_le _)
      show Kept fields chunkBytes (t.column + 1) t.offset _
      rwa [hzero] }

/-- A chunk, of a column that has bytes. -/
theorem Reached.read (hr : Reached h fields chunkBytes before t) (hpos : 0 < chunkBytes) {f : Field}
    (hf : fields[t.column]? = some f) (hne : f.content ≠ [])
    {hash : S} (hhash : hash = if t.offset = 0 then h.write t.hash f.header else t.hash)
    (col : LargeColumn) (hcol : col.bytes = f.content.length)
    {data : Bytes}
    (hdata : data = (f.content.drop t.offset).take (min chunkBytes (f.content.length - t.offset))) :
    Reached h fields chunkBytes before (t.read h chunkBytes col hash data) ∧
      t.done fields < (t.read h chunkBytes col hash data).done fields := by
  have hcontent := content_of_get hf
  have hlen : 0 < f.content.length := length_pos_iff.mpr hne
  have hinside : t.offset < f.content.length := by
    have := hr.inside
    rw [hcontent] at this
    omega
  have hn : data.length = min chunkBytes (f.content.length - t.offset) := by
    rw [hdata, length_take, length_drop]
    omega
  have hdata' : data = (f.content.drop t.offset).take data.length := by rw [hn, ← hdata]
  have hdpos : 0 < data.length := by omega
  have hwritten :
      h.write hash data = h.after (written fields t.column (t.offset + data.length)) := by
    rw [← written_read hf t.offset data.length hdpos, ← hdata', hhash, hr.hash]
    by_cases ho : t.offset = 0
    · rw [if_pos ho, if_pos ho, ho, h.write_after, h.write_after]
    · rw [if_neg ho, if_neg ho, h.write_after]
  have hfield : h.write t.fieldHash data = h.after (f.content.take (t.offset + data.length)) := by
    have htake : f.content.take (t.offset + data.length) = f.content.take t.offset ++ data := by
      rw [take_add, ← hdata']
    rw [hr.fieldHash, h.write_after, hcontent, htake]
  have hkept := hr.kept.read hr.aligned hdpos
  rw [hcontent, ← hdata', append_assoc] at hkept
  by_cases hend : t.offset + data.length = f.content.length
  · rw [LargeTurn.read, if_pos (hend.trans hcol.symm)]
    rw [hend] at hwritten hfield hkept
    constructor
    · exact {
        column_le := (List.getElem?_eq_some_iff.mp hf).1
        aligned := Nat.dvd_zero _
        inside := Or.inl rfl
        hash := by rw [hwritten, written_end hf hne]
        fieldHash := by rw [take_zero, h.after_nil]
        digests := by rw [length_set, hr.digests]
        complete := by
          intro i hi hi'
          by_cases heq : i = t.column
          · have hlt : t.column < t.fieldDigests.length := by
              rw [hr.digests]
              exact (List.getElem?_eq_some_iff.mp hf).1
            rw [heq, List.getElem?_set_self hlt, hfield, hcontent, take_length]
          · rw [List.getElem?_set_ne (Ne.symm heq)]
            have hi : i < t.column + 1 := hi
            exact hr.complete i (by omega) hi'
        kept := hkept.next (by rw [hcontent]) }
    · have := done_next ⟨t.column + 1, 0, h.write hash data, h.start,
        t.fieldDigests.set t.column (h.digest (h.write t.fieldHash data)),
        t.chunks ++ [⟨t.column, t.offset / chunkBytes, data⟩]⟩ hf rfl rfl
      omega
  · rw [LargeTurn.read, if_neg (fun he => hend (he.trans hcol))]
    constructor
    · exact {
        column_le := hr.column_le
        -- a chunk that does not end its column is a full one
        aligned := by
          have : data.length = chunkBytes := by omega
          rw [this]
          exact Nat.dvd_add hr.aligned (Nat.dvd_refl _)
        inside := by
          right
          show t.offset + data.length < (content fields t.column).length
          rw [hcontent]
          omega
        hash := hwritten
        fieldHash := by rw [hfield, hcontent]
        digests := hr.digests
        complete := hr.complete
        kept := hkept }
    · show t.done fields < ((fields.take t.column).map fun f => f.content.length).sum +
        (t.offset + data.length)
      rw [LargeTurn.done]
      omega

end Loop

/-! ### Turns -/

section Turns
variable {S : Type} {h : Incremental UInt8 S Bytes} {row : List Field} {chunkBytes : Nat}

theorem largeMetadata_get (row : List Field) (column : Nat) :
    (largeMetadata row)[column]? =
      (sorted row)[column]?.map fun f => ⟨f.name, f.content.length, f.value.isNone⟩ :=
  List.getElem?_map

theorem length_largeMetadata (row : List Field) :
    (largeMetadata row).length = (sorted row).length := length_map _

/-- A query by name reads the column that the metadata named. -/
theorem substring_eq (hnames : (row.map Field.name).Nodup) {column : Nat} {f : Field}
    (hf : (sorted row)[column]? = some f) (offset length : Nat) :
    substring row f.name offset length = (f.content.drop offset).take length := by
  have hmem : f ∈ row := (mem_insertionSort _).mp (mem_of_getElem? hf)
  have hfind : row.find? (fun g => g.name == f.name) = some f := by
    obtain ⟨g, hg⟩ : ∃ g, row.find? (fun g => g.name == f.name) = some g :=
      isSome_iff_exists.mp (List.find?_isSome.mpr ⟨f, hmem, beq_self_eq_true _⟩)
    have hname : g.name = f.name := by simpa using List.find?_some hg
    rw [hg, inj_on_of_nodup_map hnames (mem_of_find?_eq_some hg) hmem hname]
  rw [substring, hfind]
  rfl

/-- How a turn gets on: every chunk has a byte. -/
structure Advanced (fields : List Field) (t t' : LargeTurn S) : Prop where
  more : t.chunks.length ≤ t'.chunks.length
  bytes : t.done fields + t'.chunks.length ≤ t'.done fields + t.chunks.length

theorem Advanced.refl (fields : List Field) (t : LargeTurn S) : Advanced fields t t :=
  ⟨Nat.le_refl _, Nat.le_refl _⟩

theorem Advanced.trans {fields : List Field} {t u v : LargeTurn S} (htu : Advanced fields t u)
    (huv : Advanced fields u v) : Advanced fields t v := by
  have := htu.more
  have := htu.bytes
  have := huv.more
  have := huv.bytes
  exact ⟨by omega, by omega⟩

theorem length_read_chunks (h : Incremental UInt8 S Bytes) (chunkBytes : Nat) (t : LargeTurn S)
    (col : LargeColumn) (hash : S) (data : Bytes) :
    (t.read h chunkBytes col hash data).chunks.length = t.chunks.length + 1 := by
  rw [LargeTurn.read]
  split <;> exact length_append

/-- The loop ends, wherever it ends, in a state that was reached; with enough rounds it is
at the end of the row or has read a chunk. -/
theorem chunkLoop_spec (hnames : (row.map Field.name).Nodup) (hpos : 0 < chunkBytes)
    (late : Nat → Bool) (before : List Chunk) (rounds : Nat) (t : LargeTurn S)
    (hr : Reached h (sorted row) chunkBytes before t) :
    ∃ t', chunkLoop h row (largeMetadata row) chunkBytes late rounds t = some t' ∧
      Reached h (sorted row) chunkBytes before t' ∧ Advanced (sorted row) t t' ∧
      (t.chunks.length < largeChunksPerTurn → (sorted row).length ≤ t.column + rounds →
        t'.column = (sorted row).length ∨ t.chunks.length < t'.chunks.length) := by
  induction rounds generalizing t with
  | zero =>
    refine ⟨t, rfl, hr, Advanced.refl _ _, ?_⟩
    intro _ henough
    have := hr.column_le
    omega
  | succ rounds ih =>
    rw [chunkLoop]
    by_cases hroom : t.chunks.length < largeChunksPerTurn
    swap
    · rw [if_neg hroom]
      exact ⟨t, rfl, hr, Advanced.refl _ _, fun hlt => absurd hlt hroom⟩
    rw [if_pos hroom, largeMetadata_get]
    cases hf : (sorted row)[t.column]? with
    | none =>
      refine ⟨t, rfl, hr, Advanced.refl _ _, ?_⟩
      intro _ _
      have := List.getElem?_eq_none_iff.mp hf
      have := hr.column_le
      omega
    | some f =>
      simp only [map_some, hashFieldHeader_eq]
      by_cases hempty : f.content = []
      · obtain ⟨hzero, hskip⟩ := hr.skip hf hempty
        obtain ⟨t', hloop, hreached, hadv, hprog⟩ := ih _ hskip
        rw [if_pos (by simp [hempty]), if_pos hzero]
        have hskipped : Advanced (sorted row) t
            { t with column := t.column + 1, hash := h.write t.hash f.header } := by
          have hdone := done_next
            { t with column := t.column + 1, hash := h.write t.hash f.header } hf rfl hzero
          exact ⟨Nat.le_refl _, Nat.add_le_add_right (by omega) _⟩
        refine ⟨t', hloop, hreached, hskipped.trans hadv, ?_⟩
        · intro hlt henough
          refine hprog hlt ?_
          show (sorted row).length ≤ t.column + 1 + rounds
          omega
      · have hnull : (f.value.isNone || f.content.length == 0) = false := by
          cases hv : f.value with
          | none => exact absurd (by rw [Field.content, hv]; rfl) hempty
          | some v => simpa using hempty
        have hlength :
            ((f.content.drop t.offset).take (min chunkBytes (f.content.length - t.offset))).length =
              min chunkBytes (f.content.length - t.offset) := by
          rw [length_take, length_drop]
          omega
        obtain ⟨hreached, hbytes⟩ :=
          hr.read hpos hf hempty rfl ⟨f.name, f.content.length, f.value.isNone⟩ rfl rfl
        have hcount := length_read_chunks h chunkBytes t ⟨f.name, f.content.length, f.value.isNone⟩
          (if t.offset = 0 then h.write t.hash f.header else t.hash)
          ((f.content.drop t.offset).take (min chunkBytes (f.content.length - t.offset)))
        have hadv : Advanced (sorted row) t _ := ⟨by rw [hcount]; omega, by rw [hcount]; omega⟩
        rw [if_neg (by rw [hnull]; decide), substring_eq hnames hf, if_neg (fun hne => hne hlength)]
        split
        · exact ⟨_, rfl, hreached, hadv, fun _ _ => Or.inr (by rw [hcount]; omega)⟩
        · obtain ⟨t', hloop, hreached', hadv', _⟩ := ih _ hreached
          refine ⟨t', hloop, hreached', hadv.trans hadv', fun _ _ => Or.inr ?_⟩
          have := hadv'.more
          omega

/-- What is saved of a transfer stands for the state of a turn that was reached. -/
structure Saved (h : Incremental UInt8 S Bytes) (row : List Field) (chunkBytes : Nat)
    (before : List Chunk) (r : LargeTransfer) (t : LargeTurn S) : Prop where
  reached : Reached h (sorted row) chunkBytes before t
  chunks : t.chunks = []
  hash : largeHash h r.hashState = some t.hash
  fieldHash : largeHash h r.fieldHashState = some t.fieldHash
  rest : r = ⟨largeMetadata row, t.column, t.offset, r.hashState, r.fieldHashState, t.fieldDigests,
    chunkBytes, r.digest⟩

theorem largeHash_save (s : S) : largeHash h (h.save s) = some s := by
  rw [largeHash, if_neg (by simpa using h.save_ne s), h.restore_save]

theorem Saved.start (row : List Field) (chunkBytes : Nat) :
    Saved h row chunkBytes [] (startLarge row chunkBytes) ⟨0, 0, h.start, h.start,
      List.replicate (largeMetadata row).length [], []⟩ where
  reached := {
    column_le := Nat.zero_le _
    aligned := Nat.dvd_zero _
    inside := Or.inl rfl
    hash := (written_zero (sorted row) 0).symm ▸ h.after_nil.symm
    fieldHash := h.after_nil.symm
    digests := by rw [length_replicate, length_largeMetadata]
    complete := fun i hi => absurd hi (Nat.not_lt_zero i)
    kept := Kept.start _ _ }
  chunks := rfl
  hash := rfl
  fieldHash := rfl
  rest := rfl

variable {before : List Chunk} {r : LargeTransfer} {t : LargeTurn S}

theorem Saved.valid (hs : Saved h row chunkBytes before r t)
    (hrow : row ≠ []) (hlow : 64 * 1024 ≤ chunkBytes) (hhigh : chunkBytes ≤ largeChunkBytes) :
      r.valid = true := by
  have hne : sorted row ≠ [] := fun he =>
    hrow (List.perm_nil.mp (he ▸ (List.perm_insertionSort _ row).symm))
  have hoffset : ∀ col, (largeMetadata row)[t.column]? = some col → t.offset ≤ col.bytes := by
    intro col hcol
    rw [largeMetadata_get] at hcol
    obtain ⟨f, hf, rfl⟩ := Option.map_eq_some_iff.mp hcol
    have := hs.reached.inside
    rw [content_of_get hf] at this
    show t.offset ≤ f.content.length
    omega
  rw [hs.rest]
  simp only [LargeTransfer.valid, Bool.and_eq_true, Bool.not_eq_true', List.isEmpty_eq_false_iff,
    beq_iff_eq, decide_eq_true_eq, Option.all_eq_true]
  refine ⟨⟨⟨⟨⟨?_, ?_⟩, ?_⟩, hoffset⟩, hlow⟩, hhigh⟩
  · exact fun he => hne (List.map_eq_nil_iff.mp he)
  · rw [hs.reached.digests, length_largeMetadata]
  · rw [length_largeMetadata]
    exact hs.reached.column_le

/-- A turn: what it saves stands for what its loop reached. -/
theorem processLarge_spec (hnames : (row.map Field.name).Nodup) (hrow : row ≠ [])
    (hlow : 64 * 1024 ≤ chunkBytes) (hhigh : chunkBytes ≤ largeChunkBytes)
    (late : Nat → Bool) (hs : Saved h row chunkBytes before r t) :
    ∃ r' chunks t', processLarge h row late r = some (r', chunks) ∧
      Saved h row chunkBytes (before ++ chunks) r' t' ∧
      r'.digest = (if t'.column = (sorted row).length then h.digest t'.hash else []) ∧
      (t'.column = (sorted row).length ∨ t.done (sorted row) < t'.done (sorted row)) := by
  obtain ⟨t', hloop, hreached, hadv, hprog⟩ := chunkLoop_spec hnames (by omega) late before
    ((largeMetadata row).length + largeChunksPerTurn) t hs.reached
  have hvalid := hs.valid hrow hlow hhigh
  have hturn : processLarge h row late r = some (⟨largeMetadata row, t'.column, t'.offset,
      h.save t'.hash, h.save t'.fieldHash, t'.fieldDigests, chunkBytes,
      if t'.column = (largeMetadata row).length then h.digest t'.hash else []⟩, t'.chunks) := by
    have hstart : (⟨r.column, r.offset, t.hash, t.fieldHash, r.fieldDigests, []⟩ : LargeTurn S) =
        t := by
      rw [hs.rest, ← hs.chunks]
    have hmeta : r.columns = largeMetadata row := by rw [hs.rest]
    have hsize : r.chunkBytes = chunkBytes := by rw [hs.rest]
    have hloop' :
        chunkLoop h row r.columns r.chunkBytes late (r.columns.length + largeChunksPerTurn)
        ⟨r.column, r.offset, t.hash, t.fieldHash, r.fieldDigests, []⟩ = some t' := by
      rw [hstart, hmeta, hsize, hloop]
    simp only [processLarge, hvalid, hs.hash, hs.fieldHash]
    rw [if_neg (by simp [hmeta])]
    simp only [bind_eq_bind, bind_some, hloop']
    rw [hmeta, hsize]
  refine ⟨_, _, { t' with chunks := [] }, hturn, ?_, ?_, ?_⟩
  · exact {
      reached := { hreached with
        kept := by
          rw [append_nil]
          exact hreached.kept }
      chunks := rfl
      hash := largeHash_save _
      fieldHash := largeHash_save _
      rest := rfl }
  · rw [length_largeMetadata]
  · have hroom : t.chunks.length < largeChunksPerTurn := by
      rw [hs.chunks]
      decide
    have hrounds :
        (sorted row).length ≤ t.column + ((largeMetadata row).length + largeChunksPerTurn) := by
      rw [length_largeMetadata]
      omega
    rcases hprog hroom hrounds with hend | hchunk
    · exact Or.inl hend
    · have := hadv.bytes
      right
      show t.done (sorted row) < t'.done (sorted row)
      omega

/-- The chunks that a mode stores. -/
def LargeMode.keeps (mode : LargeMode) (chunks : List Chunk) : List Chunk :=
  if mode = .verifyArchive then [] else chunks

/-- A transfer with a digest has come to the end of its row. -/
def Finished (h : Incremental UInt8 S Bytes) (row : List Field) (r : LargeTransfer)
    (t : LargeTurn S) : Prop :=
  r.digest = if t.column = (sorted row).length then h.digest t.hash else []

theorem run_spec (hdigest : ∀ s, h.digest s ≠ []) (mode : LargeMode)
    (hnames : (row.map Field.name).Nodup) (hrow : row ≠ [])
    (hlow : 64 * 1024 ≤ chunkBytes) (hhigh : chunkBytes ≤ largeChunkBytes)
    (turns : List (Nat → Bool))
    (hs : Saved h row chunkBytes before r t) (hfin : r.digest = [] ∨ Finished h row r t) :
    ∃ r' all t', run h mode row r (mode.keeps before) turns = some (r', mode.keeps all) ∧
      Saved h row chunkBytes all r' t' ∧
      (r'.digest = [] ∨ Finished h row r' t') ∧
        (r'.digest ≠ [] ∨ t.done (sorted row) + turns.length ≤ t'.done (sorted row)) := by
  induction turns generalizing before r t with
  | nil => exact ⟨r, before, t, rfl, hs, hfin, Or.inr (Nat.le_refl _)⟩
  | cons late turns ih =>
    rw [run]
    by_cases hd : r.digest ≠ []
    · rw [if_pos hd]
      exact ⟨r, before, t, rfl, hs, hfin, Or.inl hd⟩
    obtain ⟨r', chunks, t', hturn, hs', hdig, hprog⟩ :=
      processLarge_spec hnames hrow hlow hhigh late hs
    have hstore : mode.store (mode.keeps before) chunks = some (mode.keeps (before ++ chunks)) := by
      by_cases hmode : mode = .verifyArchive
      · simp only [LargeMode.store, LargeMode.keeps, if_pos hmode]
      · simp only [LargeMode.store, LargeMode.keeps, if_neg hmode]
        apply Kept.insert
        have hordered := hs'.reached.kept.ordered
        rwa [hs'.chunks, append_nil] at hordered
    obtain ⟨r'', all, t'', hrun, hs'', hfin', hprog'⟩ := ih hs' (Or.inr hdig)
    refine ⟨r'', all, t'', ?_, hs'', hfin', ?_⟩
    · rw [if_neg hd, hturn]
      show (mode.store (mode.keeps before) chunks >>= fun stored =>
        run h mode row r' stored turns) = _
      rw [hstore]
      exact hrun
    · rcases hprog with hend | hmore
      · -- the digest is there, so the later turns do nothing
        have hd' : r'.digest ≠ [] := by
          rw [hdig, if_pos hend]
          exact hdigest _
        left
        cases turns with
        | nil =>
          obtain ⟨rfl, _⟩ := Prod.mk.inj (Option.some.inj hrun)
          exact hd'
        | cons late' turns =>
          rw [run, if_pos hd'] at hrun
          obtain ⟨rfl, _⟩ := Prod.mk.inj (Option.some.inj hrun)
          exact hd'
      · rw [length_cons]
        exact hprog'.imp_right fun hle => by omega

/-- The bytes of a row's values. -/
def totalBytes (row : List Field) : Nat := ((sorted row).map fun f => f.content.length).sum

theorem done_le (hr : Reached h (sorted row) chunkBytes before t) :
    t.done (sorted row) ≤ totalBytes row := by
  have hsplit : totalBytes row = (((sorted row).take t.column).map fun f => f.content.length).sum +
      (((sorted row).drop t.column).map fun f => f.content.length).sum := by
    rw [← sum_append, ← map_append, take_append_drop]
    rfl
  have hoffset : t.offset ≤ (((sorted row).drop t.column).map fun f => f.content.length).sum := by
    rcases hr.inside with hzero | hinside
    · omega
    · cases hf : (sorted row)[t.column]? with
      | none =>
        rw [content, hf] at hinside
        exact absurd hinside (Nat.not_lt_zero _)
      | some f =>
        rw [content_of_get hf] at hinside
        have hdrop : (sorted row).drop t.column = f :: (sorted row).drop (t.column + 1) := by
          obtain ⟨hlt, rfl⟩ := List.getElem?_eq_some_iff.mp hf
          exact drop_eq_getElem_cons hlt
        rw [hdrop, map_cons, sum_cons]
        omega
  rw [LargeTurn.done]
  omega

end Turns

/-- A transfer of no columns is refused. -/
theorem run_no_columns {S : Type} (h : Incremental UInt8 S Bytes) (mode : LargeMode)
    (chunkBytes : Nat) (turns : List (Nat → Bool)) {r : LargeTransfer}
    {stored : List Chunk}
    (hrun : run h mode [] (startLarge [] chunkBytes) [] turns = some (r, stored)) :
      r.digest = [] := by
  cases turns with
  | nil =>
    obtain ⟨rfl, _⟩ := Prod.mk.inj (Option.some.inj hrun)
    rfl
  | cons late turns => cases hrun

/-- What a transfer leaves that came to its end. -/
theorem Saved.finished {S : Type} {h : Incremental UInt8 S Bytes} {row : List Field}
    {chunkBytes : Nat} {all : List Chunk} {r : LargeTransfer} {t : LargeTurn S}
    (hs : Saved h row chunkBytes all r t) (hend : t.column = (sorted row).length) :
    h.digest t.hash = rowHash h row ∧
    ∀ (i : Nat) (f : Field), (sorted row)[i]? = some f →
      (f.content ≠ [] → r.fieldDigests[i]? = some (h.digest (h.after f.content))) ∧
        reassemble all i = f.content := by
  constructor
  · have hzero : t.offset = 0 := by
      have hinside := hs.reached.inside
      rw [content, hend, List.getElem?_eq_none (Nat.le_refl _)] at hinside
      exact hinside.resolve_right (Nat.not_lt_zero _)
    rw [hs.reached.hash, hend, hzero, written_zero, take_length, rowHash_eq]
  · intro i f hf
    have hi : i < t.column := hend ▸ (List.getElem?_eq_some_iff.mp hf).1
    rw [← content_of_get hf]
    constructor
    · intro hne
      rw [hs.rest]
      exact hs.reached.complete i hi hne
    · have hkept := hs.reached.kept.reassemble hi
      rwa [hs.chunks, append_nil] at hkept

/-- A large row is archived under the hash of the ordinary row. Whatever the limits of the
turns, none fails; with as many turns as the row has bytes, and one more, there is a digest;
and a digest, once there, is the hash of the row, every field digest is the hash of its
column, and the chunks that were stored are the columns. -/
theorem streamed_digest_eq_rowHash {S : Type} (h : Incremental UInt8 S Bytes)
    (hdigest : ∀ s, h.digest s ≠ []) (mode : LargeMode) (row : List Field)
    (hnames : (row.map Field.name).Nodup) (chunkBytes : Nat) (hlow : 64 * 1024 ≤ chunkBytes)
    (hhigh : chunkBytes ≤ largeChunkBytes)
    (turns : List (Nat → Bool)) :
    (row ≠ [] → ∃ r stored, run h mode row (startLarge row chunkBytes) [] turns = some (r, stored) ∧
      (totalBytes row < turns.length → r.digest ≠ [])) ∧
    ∀ r stored, run h mode row (startLarge row chunkBytes) [] turns = some (r, stored) →
      r.digest ≠ [] →
      r.digest = rowHash h row ∧
        (∀ previous, chainDigest h previous r.digest = chain h previous row) ∧
      ∀ (i : Nat) (f : Field) (value : Bytes), (sorted row)[i]? = some f → f.value = some value →
        (value ≠ [] → r.fieldDigests[i]? = some (h.digest (h.after value))) ∧
        (mode ≠ .verifyArchive → reassemble stored i = value) := by
  by_cases hrow : row = []
  · subst hrow
    exact ⟨fun hne => absurd rfl hne, fun r stored hrun hd =>
      absurd (run_no_columns h mode chunkBytes turns hrun) hd⟩
  obtain ⟨r, all, t, hrun, hs, hfin, hprog⟩ := run_spec hdigest mode hnames hrow hlow hhigh turns
    (Saved.start (h := h) row chunkBytes) (Or.inl rfl)
  have hempty : mode.keeps [] = [] := ite_self _
  rw [hempty] at hrun
  constructor
  · intro _
    refine ⟨r, mode.keeps all, hrun, ?_⟩
    intro hturns hd
    have hdone := done_le hs.reached
    have hmore := hprog.resolve_left (not_not_intro hd)
    omega
  · intro r' stored hrun' hd
    obtain ⟨rfl, rfl⟩ := Prod.mk.inj (Option.some.inj (hrun.symm.trans hrun'))
    have hfinished := hfin.resolve_left hd
    have hend : t.column = (sorted row).length := by
      by_contra hne
      rw [Finished, if_neg hne] at hfinished
      exact hd hfinished
    obtain ⟨hhash, hcolumns⟩ := hs.finished hend
    have hdig : r.digest = rowHash h row := by rw [hfinished, if_pos hend, hhash]
    refine ⟨hdig, fun previous => by rw [chainDigest, chain, hdig], ?_⟩
    intro i f value hf hvalue
    have hcontent : f.content = value := by rw [Field.content, hvalue]; rfl
    obtain ⟨hfield, hchunks⟩ := hcolumns i f hf
    rw [hcontent] at hfield hchunks
    exact ⟨hfield, fun hmode => by rw [LargeMode.keeps, if_neg hmode, hchunks]⟩

/-- A hash that keeps all it is fed. -/
def transcript : Incremental UInt8 Bytes Bytes where
  start := []
  write := fun s a => s ++ a
  digest := fun s => 0 :: s
  save := fun s => 0 :: s
  restore := List.tail?
  write_append := fun s a b => (append_assoc s a b).symm
  write_nil := append_nil
  restore_save := fun _ => rfl
  save_ne := fun _ => nofun

/-- A column of one byte more than a chunk. -/
def longColumn : Bytes := List.replicate 65537 5

def longRow : List Field := [⟨[98], none⟩, ⟨[97], some longColumn⟩, ⟨[99], some [7]⟩]

theorem sorted_longRow :
    sorted longRow = [⟨[97], some longColumn⟩, ⟨[98], none⟩, ⟨[99], some [7]⟩] := rfl

theorem length_longColumn : longColumn.length = 65537 := length_replicate

theorem largeMetadata_longRow :
    largeMetadata longRow = [⟨[97], 65537, false⟩, ⟨[98], 0, true⟩, ⟨[99], 1, false⟩] := by
  simp [largeMetadata, sorted_longRow, Field.content, length_longColumn]

/-- The turn ends after its first chunk, a byte before the column does. -/
theorem processLarge_longRow :
    ∃ r chunks, processLarge transcript longRow (fun _ => true) (startLarge longRow 65536) =
      some (r, chunks) ∧
      r.column = 0 ∧ r.offset = 65536 := by
  have hread : (substring longRow [97] 0 65536).length = 65536 := by
    simp [substring, longRow, Field.content, length_longColumn]
  simp [processLarge, valid, startLarge, largeMetadata_longRow, largeHash, largeChunkBytes,
    largeChunksPerTurn, chunkLoop, LargeTurn.read, hread]

theorem streamed_digest_eq_rowHash_longRow :
    (∃ r chunks, processLarge transcript longRow (fun _ => true) (startLarge longRow 65536) =
      some (r, chunks) ∧
      r.column = 0 ∧ r.offset = 65536) ∧
    ∃ r stored, run transcript .collect longRow (startLarge longRow 65536) []
        (List.replicate 65539 fun _ => true) = some (r, stored) ∧
      r.digest = rowHash transcript longRow ∧ reassemble stored 0 = longColumn := by
  obtain ⟨hruns, hresult⟩ := streamed_digest_eq_rowHash transcript (fun _ => nofun) .collect longRow
    (by simp [longRow]) 65536 (by decide) (by decide) (List.replicate 65539 fun _ => true)
  obtain ⟨r, stored, hrun, henough⟩ := hruns (by simp [longRow])
  have hbytes : totalBytes longRow = 65538 := by
    simp [totalBytes, sorted_longRow, Field.content, length_longColumn]
  obtain ⟨hhash, -, hcolumns⟩ :=
    hresult r stored hrun (henough (by rw [hbytes, length_replicate]; decide))
  exact ⟨processLarge_longRow, r, stored, hrun, hhash,
    (hcolumns 0 _ longColumn (by rw [sorted_longRow]; rfl) rfl).2 (by decide)⟩
end ControlTower.Archive
