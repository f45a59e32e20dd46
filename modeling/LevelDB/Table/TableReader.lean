/-
  Table files as they are read (`table/table.cc`).

  `Open` reads the footer, the index block and, with a filter policy, the filter block; errors in
  the latter only mean that there is no filter. `NewIterator` is a two-level iterator over the
  index block and the data blocks. The block cache is left out: it returns the blocks that would
  have been read.
-/
import LevelDB.Table.TableBuilder

namespace LevelDB

open List Cursor

/-- `struct TableOptions`. -/
structure TableOptions where
  comparator : Comparator
  filterPolicy : Option FilterPolicy
  paranoidChecks : Bool

/-- `class Table`, over the bytes of its file. -/
structure TableReader where
  options : TableOptions
  file : Bytes
  indexBlock : Block
  filter : Option FilterBlockReader

namespace TableReader

section Open

variable (crc : Checksum) (options : TableOptions) (file : Bytes)

def readFilter (policy : FilterPolicy) (filterHandleValue : Bytes) : Option FilterBlockReader :=
  match BlockHandle.decodeFrom filterHandleValue with
  | .error _ => none
  | .ok (filterHandle, _) =>
    match readBlock crc file options.paranoidChecks filterHandle with
    | .error _ => none
    | .ok block => some (FilterBlockReader.new policy block)

/-- `ReadMeta`: the filter, if it can be read. -/
def readMeta (footer : Footer) : Option FilterBlockReader :=
  match options.filterPolicy with
  | none => none
  | some policy =>
    match readBlock crc file options.paranoidChecks footer.metaindexHandle with
    | .error _ => none
    | .ok contents =>
      let iter := (Iter.machine Bytewise.comparator.compare).seek policy.metaKey
        (Block.new contents).newIterator
      match iter.current with
      | none => none
      | some (key, value) =>
        if key = policy.metaKey then readFilter crc options file policy value else none

/-- `Table::Open`. -/
def openTable (size : Nat) : Except Status TableReader :=
  if size < Footer.kEncodedLength then
    .error (.corruptionErr "file is too short to be an sstable")
  else do
    let footer ← Footer.decodeFrom
      (readAt file (size - Footer.kEncodedLength) Footer.kEncodedLength)
    let contents ← readBlock crc file options.paranoidChecks footer.indexHandle
    return ⟨options, file, Block.new contents, readMeta crc options file footer⟩

end Open

section Read

variable (crc : Checksum) (t : TableReader) (verifyChecksums : Bool)

def blockReader (indexValue : Bytes) : Iter :=
  match BlockHandle.decodeFrom indexValue with
  | .error status => .empty (some status)
  | .ok (handle, _) =>
    match readBlock crc t.file verifyChecksums handle with
    | .error status => .empty (some status)
    | .ok contents => (Block.new contents).newIterator

/-- The two levels of the table's iterator. The index block has fewer entries than bytes. -/
def levels : Levels Iter Iter (Bytes × Bytes) (Bytes × Bytes) Bytes Bytes Status where
  index := Iter.machine t.options.comparator.compare
  data := Iter.machine t.options.comparator.compare
  handle := Prod.snd
  blockFunction := t.blockReader crc verifyChecksums
  turns := t.indexBlock.data.length

def newIterator : TwoLevelIterator Iter Iter Bytes Status :=
  TwoLevelIterator.new t.indexBlock.newIterator

def iterator : Machine (TwoLevelIterator Iter Iter Bytes Status) (Bytes × Bytes) Bytes Status :=
  TwoLevelIterator.machine (t.levels crc verifyChecksums)

def rejects (handleValue k : Bytes) : Bool :=
  match t.filter, BlockHandle.decodeFrom handleValue with
  | some filter, .ok (handle, _) => !filter.keyMayMatch handle.offset k
  | _, _ => false

/-- `InternalGet`: the entry that `handle_result` is called with, if any, and the status. -/
def internalGet (k : Bytes) : Option (Bytes × Bytes) × Option Status :=
  let iter := Iter.machine t.options.comparator.compare
  let iiter := iter.seek k t.indexBlock.newIterator
  match iter.current iiter with
  | none => (none, iter.error iiter)
  | some (_, handleValue) =>
    if t.rejects handleValue k then (none, iter.error iiter)
    else
      let blockIter := iter.seek k (t.blockReader crc verifyChecksums handleValue)
      (iter.current blockIter, (iter.error blockIter).or (iter.error iiter))

end Read

end TableReader

/-! ## Reading built files -/

namespace TableLayout

variable {crc : Checksum} {opt : TableBuilderOptions} {es : List (Bytes × Bytes)} {file : Bytes}
  {blocks : List IndexedBlock} {metaEntries : List (Bytes × Bytes)} {footer : Footer} {o : TableOrder}

def indexBytes (blocks : List IndexedBlock) : Bytes :=
  (BlockBuilder.addAll 1 (blocks.map IndexedBlock.indexEntry)).finish

/-- The table that `Open` returns. -/
def table (crc : Checksum) (topt : TableOptions) (file : Bytes) (blocks : List IndexedBlock)
    (footer : Footer) : TableReader :=
  ⟨topt, file, Block.new (indexBytes blocks), TableReader.readMeta crc topt file footer⟩

section

variable (L : TableLayout crc opt es file blocks metaEntries footer)
include L

section

variable (hfile : file.length < 2 ^ 64)
include hfile

theorem decodeFrom_footer :
    Footer.kEncodedLength ≤ file.length ∧
      Footer.decodeFrom (readAt file (file.length - Footer.kEncodedLength) Footer.kEncodedLength) =
        .ok footer := by
  obtain ⟨front, hfront⟩ := L.footer_last
  have hlen : file.length = front.length + Footer.kEncodedLength := by
    rw [hfront, length_append, Footer.length_encodeTo]
  have hfooter : readAt file (file.length - Footer.kEncodedLength) Footer.kEncodedLength =
      footer.encodeTo := by
    unfold readAt
    rw [hlen, Nat.add_sub_cancel, hfront, drop_left,
      take_of_length_le (Footer.length_encodeTo footer).le]
  have hmeta := L.metaindex.fits
  have hindex := L.index.fits
  refine ⟨by omega, ?_⟩
  rw [hfooter]
  exact Footer.decodeFrom_encodeTo ⟨by omega, by omega⟩ ⟨by omega, by omega⟩

/-- **Built files** are opened. -/
theorem openTable_eq (topt : TableOptions) :
    TableReader.openTable crc topt file file.length = .ok (table crc topt file blocks footer) := by
  obtain ⟨hlen, hfooter⟩ := L.decodeFrom_footer hfile
  unfold TableReader.openTable
  rw [if_neg (not_lt.mpr hlen), hfooter]
  simp only [bind, Except.bind, L.index.readBlock_eq hfile]
  rfl

theorem decodeFrom_handle {x : IndexedBlock} (hx : x ∈ blocks) :
    BlockHandle.decodeFrom x.handle.encodeTo = .ok (x.handle, []) := by
  have hfits := (L.data x hx).fits
  have hread := BlockHandle.decodeFrom_encodeTo (h := x.handle) (by omega) (by omega) []
  rwa [append_nil] at hread

theorem blockReader_eq (topt : TableOptions) (verifyChecksums : Bool) {x : IndexedBlock}
    (hx : x ∈ blocks) :
    (table crc topt file blocks footer).blockReader crc verifyChecksums x.handle.encodeTo =
      (Block.new (opt.blockBytes x.entries)).newIterator := by
  unfold TableReader.blockReader
  rw [L.decodeFrom_handle hfile hx]
  dsimp only
  show (match readBlock crc file verifyChecksums x.handle with
    | .error status => Iter.empty (some status)
    | .ok contents => (Block.new contents).newIterator) = _
  rw [(L.data x hx).readBlock_eq hfile]

end

theorem exists_data
    (hfile : file.length < 2 ^ 32) (hinterval : 1 ≤ opt.blockRestartInterval) {x : IndexedBlock}
    (hx : x ∈ blocks) :
    ∃ B : BlockLayout, B.bytes = opt.blockBytes x.entries ∧ B.entries = x.entries := by
  have hfits := (L.data x hx).fits
  refine build_layout hinterval ?_
  unfold TableBuilderOptions.blockBytes at hfits
  omega

end

theorem exists_index (blocks : List IndexedBlock) (hsize : (indexBytes blocks).length < 2 ^ 32) :
    ∃ B : BlockLayout, B.bytes = indexBytes blocks ∧
      B.entries = blocks.map IndexedBlock.indexEntry :=
  build_layout (le_refl 1) hsize

section

variable (L : TableLayout crc opt es file blocks metaEntries footer)
include L

theorem indexBytes_lt (hfile : file.length < 2 ^ 32) : (indexBytes blocks).length < 2 ^ 32 := by
  have hfits := L.index.fits
  unfold indexBytes
  omega

theorem handles_nodup
    (hfile : file.length < 2 ^ 64) : (blocks.map fun x => x.handle.encodeTo).Nodup := by
  refine pairwise_map.mpr (List.Pairwise.imp_of_mem ?_ L.increasing)
  intro x y hx hy hlt heq
  have hfitsx := (L.data x hx).fits
  have hfitsy := (L.data y hy).fits
  have hhandle := BlockHandle.encodeTo_inj ⟨by omega, by omega⟩ ⟨by omega, by omega⟩ heq
  rw [hhandle] at hlt
  exact absurd hlt (lt_irrefl _)

end

/-- The iterator of block `i` is on entry `j`. -/
def OnEntry (blocks : List IndexedBlock) (i : Nat) (it : Iter) (j : Nat) : Prop :=
  ∃ B : BlockLayout, (∀ x, blocks[i]? = some x → B.entries = x.entries) ∧ B.Tracks it j

section

variable (L : TableLayout crc opt es file blocks metaEntries footer)
include L

theorem serves
    (hfile : file.length < 2 ^ 32) (hinterval : 1 ≤ opt.blockRestartInterval) {topt : TableOptions}
    (hcmp : topt.comparator = o.comparator) (verifyChecksums : Bool) {wellFormed : Bytes → Prop}
    (hindex : ∀ t, wellFormed t →
      SortedList.Strict (fun x => o.rank x.1) ((blocks.map IndexedBlock.part).map Prod.fst))
    (hordered : ∀ t, wellFormed t → TwoLevelIterator.Ordered (fun x => o.rank x.1)
      (fun e => o.rank e.1) (blocks.map IndexedBlock.part))
    {I : BlockLayout} (hbytes : I.bytes = indexBytes blocks)
    (hentries : I.entries = blocks.map IndexedBlock.indexEntry) :
    TwoLevelIterator.Serves ((table crc topt file blocks footer).levels crc verifyChecksums)
      (fun x => o.rank x.1) (fun e => o.rank e.1) o.rank wellFormed (blocks.map IndexedBlock.part)
      I.Tracks (OnEntry blocks) where
  index := by
    have hfirst : (blocks.map IndexedBlock.part).map Prod.fst = I.entries := by
      rw [List.map_map, hentries]
      rfl
    show (Iter.machine topt.comparator.compare).Faithful _ _ _ _ _
    rw [hcmp, hfirst]
    refine I.faithful o.compares ?_
    intro t ht
    have := hindex t ht
    rwa [hfirst] at this
  data := by
    intro i x hx
    rw [getElem?_map] at hx
    obtain ⟨y, hy, rfl⟩ := Option.map_eq_some_iff.mp hx
    show (Iter.machine topt.comparator.compare).Faithful _ _ _ _ _
    rw [hcmp]
    refine Machine.faithful_exists ?_
    intro B hB
    have hB := hB y hy
    show (Iter.machine o.comparator.compare).Faithful _ _ _ y.entries _
    rw [← hB]
    refine B.faithful o.compares ?_
    intro t ht
    rw [hB]
    exact (pairwise_flatMap.mp (hordered t ht).data).1 _
      (List.mem_map_of_mem (mem_of_getElem? hy))
  opens := by
    intro i x hx
    rw [getElem?_map] at hx
    obtain ⟨y, hy, rfl⟩ := Option.map_eq_some_iff.mp hx
    have hmem := mem_of_getElem? hy
    obtain ⟨B, hbytes, hB⟩ := L.exists_data hfile hinterval hmem
    refine ⟨B, ?_, ?_⟩
    · intro z hz
      rw [hy] at hz
      rw [← Option.some.inj hz]
      exact hB
    · show B.Tracks ((table crc topt file blocks footer).blockReader crc verifyChecksums
        y.handle.encodeTo) y.entries.length
      rw [L.blockReader_eq (by omega) topt verifyChecksums hmem, ← hbytes, ← hB]
      exact B.tracks_new
  handles := by
    rw [List.map_map]
    exact L.handles_nodup (by omega)
  turns := by
    show (blocks.map IndexedBlock.part).length ≤ (Block.new (indexBytes blocks)).data.length
    have hdata : (Block.new (indexBytes blocks)).data = indexBytes blocks := by
      unfold Block.new
      dsimp only
      split_ifs <;> rfl
    have hle := I.length_entries_le
    rw [hentries, length_map, hbytes] at hle
    rw [hdata, length_map]
    exact hle
  ordered := hordered

theorem tracks_new (topt : TableOptions)
    (verifyChecksums : Bool) {I : BlockLayout} (hbytes : I.bytes = indexBytes blocks)
    (hentries : I.entries = blocks.map IndexedBlock.indexEntry) :
    TwoLevelIterator.Tracks ((table crc topt file blocks footer).levels crc verifyChecksums)
      (blocks.map IndexedBlock.part) I.Tracks (OnEntry blocks)
      (table crc topt file blocks footer).newIterator es.length := by
  refine .inr ⟨⟨rfl, rfl, I.entries.length, ?_, ?_⟩, ?_⟩
  · show I.Tracks (Block.new (indexBytes blocks)).newIterator I.entries.length
    rw [← hbytes]
    exact I.tracks_new
  · rw [hentries, length_map, length_map]
  · rw [flatMap_part, ← L.entries]

end

end TableLayout

end LevelDB
