/-
  Where a key is in a table file, roughly (`Table::ApproximateOffsetOf` in `table/table.cc`,
  `TableCache::ApproximateOffsetOf` in `db/table_cache.cc`).

  The answer is the offset of the first data block whose separator is at or after the key, and the
  offset of the meta-index block, which comes after the data blocks, if there is none.
-/
import LevelDB.Table.Lookup

namespace LevelDB

open List Cursor

namespace TableReader

/-- `Table::ApproximateOffsetOf`; the handle is the one that `Open` has saved from the footer. -/
def approximateOffsetOf (t : TableReader) (metaindexHandle : BlockHandle) (key : Bytes) : Nat :=
  let iter := Iter.machine t.options.comparator.compare
  match iter.current (iter.seek key t.indexBlock.newIterator) with
  | some (_, value) =>
    match BlockHandle.decodeFrom value with
    | .ok (handle, _) => handle.offset
    | .error _ => metaindexHandle.offset
  | none => metaindexHandle.offset

/-- `rep->metaindex_handle`, from the footer. -/
def metaindexHandle (file : Bytes) (size : Nat) : Except Status BlockHandle :=
  (Footer.decodeFrom (readAt file (size - Footer.kEncodedLength) Footer.kEncodedLength)).map
    Footer.metaindexHandle

/-- `TableCache::ApproximateOffsetOf`: 0 for a table that cannot be opened. -/
def cacheApproximateOffsetOf (crc : Checksum) (options : TableOptions) (file : Bytes) (size : Nat)
    (key : Bytes) : Nat :=
  match openTable crc options file size, metaindexHandle file size with
  | .ok t, .ok handle => t.approximateOffsetOf handle key
  | _, _ => 0

section Api

variable {t : TableReader} {metaindexHandle : BlockHandle} {key : Bytes}

theorem approximateOffsetOf_some {k value rest : Bytes} {handle : BlockHandle}
    (hcurrent : (Iter.machine t.options.comparator.compare).current
      ((Iter.machine t.options.comparator.compare).seek key t.indexBlock.newIterator) =
        some (k, value))
    (hdecode : BlockHandle.decodeFrom value = .ok (handle, rest)) :
    t.approximateOffsetOf metaindexHandle key = handle.offset := by
  unfold approximateOffsetOf
  dsimp only
  rw [hcurrent]
  dsimp only
  rw [hdecode]

theorem approximateOffsetOf_none
    (hcurrent : (Iter.machine t.options.comparator.compare).current
      ((Iter.machine t.options.comparator.compare).seek key t.indexBlock.newIterator) = none) :
    t.approximateOffsetOf metaindexHandle key = metaindexHandle.offset := by
  unfold approximateOffsetOf
  dsimp only
  rw [hcurrent]

end Api

end TableReader

/-! ## Built files -/

def blockOffset (o : TableOrder) (blocks : List IndexedBlock) (dataEnd : Nat) (key : Bytes) : Nat :=
  ((blocks.find? fun x => decide (o.rank key ≤ o.rank x.separator)).map fun x =>
    x.handle.offset).getD dataEnd

section BlockOffset

variable {o : TableOrder} {blocks : List IndexedBlock} {dataEnd : Nat}

theorem blockOffset_mem {S : Set Nat} (hblocks : ∀ x ∈ blocks, x.handle.offset ∈ S)
    (hend : dataEnd ∈ S) (key : Bytes) : blockOffset o blocks dataEnd key ∈ S := by
  unfold blockOffset
  cases hfind : blocks.find? fun x => decide (o.rank key ≤ o.rank x.separator) with
  | none => exact hend
  | some x => exact hblocks x (mem_of_find?_eq_some hfind)

theorem blockOffset_cons (x : IndexedBlock) (key : Bytes) :
    blockOffset o (x :: blocks) dataEnd key =
      if o.rank key ≤ o.rank x.separator then x.handle.offset
      else blockOffset o blocks dataEnd key := by
  unfold blockOffset
  rw [find?_cons]
  split_ifs with h
  · rw [decide_eq_true h]
    rfl
  · rw [decide_eq_false h]

theorem blockOffset_mono (hinc : blocks.Pairwise fun x y => x.handle.offset < y.handle.offset)
    (hend : ∀ x ∈ blocks, x.handle.offset ≤ dataEnd) {key key' : Bytes}
    (h : o.rank key ≤ o.rank key') :
    blockOffset o blocks dataEnd key ≤ blockOffset o blocks dataEnd key' := by
  induction blocks with
  | nil => exact le_refl dataEnd
  | cons x blocks ih =>
    obtain ⟨hx, hinc⟩ := pairwise_cons.mp hinc
    have hrest : ∀ y ∈ blocks, x.handle.offset ≤ y.handle.offset := fun y hy => (hx y hy).le
    rw [blockOffset_cons, blockOffset_cons]
    split_ifs with hk hk'
    · exact le_refl _
    · exact blockOffset_mem (S := Set.Ici x.handle.offset) hrest (hend x mem_cons_self) key'
    · exact absurd (h.trans ‹_›) hk
    · exact ih hinc fun y hy => hend y (mem_cons_of_mem _ hy)

end BlockOffset

namespace TableLayout

variable {crc : Checksum} {opt : TableBuilderOptions} {es : List (Bytes × Bytes)} {file : Bytes}
  {blocks : List IndexedBlock} {metaEntries : List (Bytes × Bytes)} {footer : Footer}

section

variable (L : TableLayout crc opt es file blocks metaEntries footer) (hfile : file.length < 2 ^ 64)
include L hfile

theorem metaindexHandle_eq :
    TableReader.metaindexHandle file file.length = .ok footer.metaindexHandle := by
  unfold TableReader.metaindexHandle
  rw [(L.decodeFrom_footer hfile).2]
  rfl

theorem cacheApproximateOffsetOf_eq (topt : TableOptions) (key : Bytes) :
    TableReader.cacheApproximateOffsetOf crc topt file file.length key =
      (table crc topt file blocks footer).approximateOffsetOf footer.metaindexHandle key := by
  unfold TableReader.cacheApproximateOffsetOf
  rw [L.openTable_eq hfile topt, L.metaindexHandle_eq hfile]

theorem approximateOffsetOf_eq (hindex : (indexBytes blocks).length < 2 ^ 32) {o : TableOrder}
    (hcmp : opt.comparator = o.comparator) (hlen : ∀ e ∈ es, o.WellFormed e.1)
    (hsorted : SortedList.Strict (fun e => o.rank e.1) es) {topt : TableOptions}
    (htopt : topt.comparator = o.comparator) (key : Bytes) :
    TableReader.cacheApproximateOffsetOf crc topt file file.length key =
      blockOffset o blocks footer.metaindexHandle.offset key := by
  have hseek := L.seek_index hindex hcmp hlen hsorted htopt key
  obtain ⟨hcurrent, -⟩ := Machine.observe_eq_iff.mp hseek
  rw [L.cacheApproximateOffsetOf_eq hfile]
  unfold blockOffset
  cases hfind : blocks.find? fun x => decide (o.rank key ≤ o.rank x.separator) with
  | none =>
    rw [hfind] at hcurrent
    exact TableReader.approximateOffsetOf_none hcurrent
  | some x =>
    rw [hfind] at hcurrent
    exact TableReader.approximateOffsetOf_some hcurrent
      (L.decodeFrom_handle hfile (mem_of_find?_eq_some hfind))

end

end TableLayout

/-! ## Tables of internal keys -/

/-- `InternalKey::Encode`. -/
def internalKeyBytes (k : InternalKey Bytes) : Bytes := k.userKey ++ encodeFixed64 k.tag

/-- A table file of the database: it was built from increasing internal keys, and it is opened,
    with an index block of less than 4 GiB. -/
structure BuiltTable (crc : Checksum) (topt : TableOptions) (file : Bytes) (size : Nat) : Prop where
  built : ∃ (opt : TableBuilderOptions) (es : List (Bytes × Bytes)),
    opt.comparator = TableOrder.internal.comparator ∧
    (∀ e ∈ es, TableOrder.internal.WellFormed e.1) ∧
    SortedList.Strict (fun e : Bytes × Bytes => TableOrder.internal.rank e.1) es ∧
    file = (TableBuilder.build crc opt es).file
  size_eq : size = file.length
  size_lt : size < 2 ^ 64
  opened : ∃ t, TableReader.openTable crc topt file size = .ok t ∧ t.indexBlock.data.length < 2 ^ 32

theorem Block.data_new (contents : Bytes) : (Block.new contents).data = contents := by
  unfold Block.new
  dsimp only
  split_ifs <;> rfl

namespace BuiltTable

variable {crc : Checksum} {topt : TableOptions} {file : Bytes} {size : Nat}

theorem of_small {opt : TableBuilderOptions} {es : List (Bytes × Bytes)}
    (hcmp : opt.comparator = TableOrder.internal.comparator)
    (hlen : ∀ e ∈ es, TableOrder.internal.WellFormed e.1)
    (hsorted : SortedList.Strict (fun e : Bytes × Bytes => TableOrder.internal.rank e.1) es)
    (hsize : (TableBuilder.build crc opt es).file.length < 2 ^ 32) (topt : TableOptions) :
    BuiltTable crc topt (TableBuilder.build crc opt es).file
      (TableBuilder.build crc opt es).file.length := by
  obtain ⟨-, blocks, metaEntries, footer, L⟩ := table_layout crc opt es
  refine ⟨⟨opt, es, hcmp, hlen, hsorted, rfl⟩, rfl, by omega, _, L.openTable_eq (by omega) topt, ?_⟩
  show (Block.new (TableLayout.indexBytes blocks)).data.length < 2 ^ 32
  rw [Block.data_new]
  exact L.indexBytes_lt hsize

section

variable (h : BuiltTable crc topt file size)
  (htopt : topt.comparator = TableOrder.internal.comparator)
include h htopt

theorem exists_blocks :
    ∃ (blocks : List IndexedBlock) (dataEnd : Nat), dataEnd ≤ size ∧
      (blocks.Pairwise fun x y => x.handle.offset < y.handle.offset) ∧
      (∀ x ∈ blocks, x.handle.offset ≤ dataEnd) ∧
      ∀ key, TableReader.cacheApproximateOffsetOf crc topt file size key =
        blockOffset .internal blocks dataEnd key := by
  obtain ⟨opt, es, hcmp, hlen, hsorted, hbuild⟩ := h.built
  obtain ⟨t, hopen, hindex⟩ := h.opened
  obtain ⟨-, blocks, metaEntries, footer, L, hfirst⟩ := table_layout_data_first crc opt es
  have hlt := h.size_lt
  rw [← hbuild] at L
  rw [h.size_eq] at hopen hlt ⊢
  rw [L.openTable_eq hlt topt] at hopen
  obtain rfl := Except.ok.inj hopen
  have hdata : (Block.new (TableLayout.indexBytes blocks)).data.length < 2 ^ 32 := hindex
  rw [Block.data_new] at hdata
  have hfits := L.metaindex.fits
  exact ⟨blocks, footer.metaindexHandle.offset, by omega, L.increasing, hfirst,
    L.approximateOffsetOf_eq hlt hdata hcmp hlen hsorted htopt⟩

/-- **The offset grows with the key.** -/
theorem approximateOffset_mono {k k' : InternalKey Bytes}
    (hk : k.tag < 2 ^ 64) (hk' : k'.tag < 2 ^ 64) (hle : k ≤ k') :
    TableReader.cacheApproximateOffsetOf crc topt file size (internalKeyBytes k) ≤
      TableReader.cacheApproximateOffsetOf crc topt file size (internalKeyBytes k') := by
  obtain ⟨blocks, dataEnd, -, hinc, hend, hoffset⟩ := h.exists_blocks htopt
  rw [hoffset, hoffset]
  refine blockOffset_mono hinc hend ?_
  unfold internalKeyBytes
  rw [rank_append_encodeFixed64 k.userKey hk, rank_append_encodeFixed64 k'.userKey hk']
  exact hle

/-- **The offset is in the file.** -/
theorem approximateOffset_le (key : Bytes) :
    TableReader.cacheApproximateOffsetOf crc topt file size key ≤ size := by
  obtain ⟨blocks, dataEnd, hsize, -, hend, hoffset⟩ := h.exists_blocks htopt
  rw [hoffset]
  exact blockOffset_mem (S := Set.Iic size) (fun x hx => (hend x hx).trans hsize) hsize key

end

end BuiltTable

/-! ## An index block of 4 GiB -/

def pairOptions : TableBuilderOptions := ⟨TableOrder.internal.comparator, 1, 16, none⟩

section Pair

variable (crc : Checksum) (e e' : Bytes × Bytes)

def pairBlock (e : Bytes × Bytes) : Bytes := pairOptions.blockBytes [e]

def pairFirst : IndexedBlock :=
  ⟨TableOrder.internal.comparator.findShortestSeparator e.1 e'.1, ⟨0, (pairBlock e).length⟩, [e]⟩

def pairSecond : IndexedBlock :=
  ⟨TableOrder.internal.comparator.findShortSuccessor e'.1,
    ⟨(rawBlock crc (pairBlock e)).length, (pairBlock e').length⟩, [e']⟩

theorem add_entry {r s : TableBuilder}
    (hr : r.addPendingIndexEntry (pairOptions.comparator.findShortestSeparator · e.1) = s)
    (hdata : s.dataBlock = .init) (hfilter : s.filterBlock = none) :
    r.add crc pairOptions e.1 e.2 =
      { s with
        file := s.file ++ rawBlock crc (pairBlock e)
        offset := s.offset + (pairBlock e).length + kBlockTrailerSize
        dataBlock := .init
        lastKey := e.1
        filterBlock := none
        pendingIndexEntry := true
        pendingHandle := ⟨s.offset, (pairBlock e).length⟩ } := by
  have hne := BlockBuilder.add_buffer_ne_nil 16 .init e.1 e.2
  unfold TableBuilder.add
  rw [hr]
  unfold TableBuilder.addEntry
  dsimp only
  rw [hdata, hfilter, if_pos (by unfold BlockBuilder.currentSizeEstimate; show 1 ≤ _; omega)]
  unfold TableBuilder.flush
  rw [if_neg (by rw [List.isEmpty_iff]; exact hne)]
  rfl

theorem addAll_pair : TableBuilder.addAll crc pairOptions [e, e'] =
    { file := rawBlock crc (pairBlock e) ++ rawBlock crc (pairBlock e')
      offset := (rawBlock crc (pairBlock e)).length + (pairBlock e').length + kBlockTrailerSize
      dataBlock := .init
      indexBlock := BlockBuilder.addAll 1 [(pairFirst e e').indexEntry]
      lastKey := e'.1
      filterBlock := none
      pendingIndexEntry := true
      pendingHandle := ⟨(rawBlock crc (pairBlock e)).length, (pairBlock e').length⟩ } := by
  have hlen : 0 + (pairBlock e).length + kBlockTrailerSize =
      (rawBlock crc (pairBlock e)).length := by
    rw [length_rawBlock, Nat.zero_add]
  show ((TableBuilder.new pairOptions).add crc pairOptions e.1 e.2).add crc pairOptions e'.1 e'.2 =
    _
  rw [add_entry crc e (r := TableBuilder.new pairOptions) rfl rfl rfl, add_entry crc e' rfl rfl rfl]
  show TableBuilder.mk _ (0 + (pairBlock e).length + kBlockTrailerSize + _ + _) _ _ _ _ _
    ⟨0 + (pairBlock e).length + kBlockTrailerSize, _⟩ = _
  rw [hlen]
  rfl

theorem pair_layout : ∃ footer,
    TableLayout crc pairOptions [e, e'] (TableBuilder.build crc pairOptions [e, e']).file
      [pairFirst e e', pairSecond crc e e'] [] footer ∧
    (TableBuilder.build crc pairOptions [e, e']).file.length =
      (pairBlock e).length + (pairBlock e').length +
        (TableLayout.indexBytes [pairFirst e e', pairSecond crc e e']).length + 76 := by
  have hadd := addAll_pair crc e e'
  generalize hr : TableBuilder.addAll crc pairOptions [e, e'] = r at hadd
  have hflush : r.flush crc = r := by rw [hadd]; rfl
  have hfile : r.file = rawBlock crc (pairBlock e) ++ rawBlock crc (pairBlock e') := by rw [hadd]
  have hfilter : r.writeFilter crc = ([], { r with file := r.file, offset := r.file.length }) := by
    rw [hadd]
    unfold TableBuilder.writeFilter
    dsimp only
    rw [length_append, length_rawBlock crc (pairBlock e'), ← Nat.add_assoc]
  have hindex : (r.addPendingIndexEntry pairOptions.comparator.findShortSuccessor).indexBlock =
      BlockBuilder.addAll 1
        ([pairFirst e e', pairSecond crc e e'].map IndexedBlock.indexEntry) := by
    rw [hadd]
    rfl
  obtain ⟨hbuild, -⟩ := @finish_eq crc pairOptions r r _ _ _ _ hflush hfilter rfl rfl
  rw [hindex] at hbuild
  unfold TableBuilder.build
  rw [hr, hbuild, hfile]
  refine ⟨_, ⟨rfl, ?_, ?_, ?_, ?_, .inl ⟨rfl, rfl⟩, ((stored_last crc _ _).append _).append _,
    (stored_last crc _ _).append _, ⟨_, rfl⟩⟩, ?_⟩
  · simp [pairFirst, pairSecond]
  · intro x hx
    refine (Stored.append ?_ _).append _ |>.append _
    obtain rfl | rfl := mem_pair.mp hx
    · exact (stored_last crc [] (pairBlock e)).append _
    · exact stored_last crc (rawBlock crc (pairBlock e)) (pairBlock e')
  · refine pairwise_pair.mpr ?_
    show 0 < (rawBlock crc (pairBlock e)).length
    rw [length_rawBlock]
    exact Nat.add_pos_right _ (by decide)
  · intro i x hx
    match i, hx with
    | 0, hx =>
      obtain rfl := Option.some.inj hx
      exact .inl ⟨e, e', rfl, rfl, rfl⟩
    | 1, hx =>
      obtain rfl := Option.some.inj hx
      exact .inr ⟨rfl, e', rfl, rfl⟩
  · have hmeta : (pairOptions.blockBytes []).length = 8 := rfl
    simp only [length_append, length_rawBlock, Footer.length_encodeTo, hmeta]
    unfold kBlockTrailerSize Footer.kEncodedLength BlockHandle.kMaxEncodedLength
      TableLayout.indexBytes
    omega

end Pair

/-- The first 50 bytes of a key: a short key, an entry with a handle of offset `2 ^ 63`, and zeros
    where the restart points will be read. -/
def wrapHead : Bytes :=
  (0xfe :: List.replicate 14 0) ++ [0, 9, 11] ++ (0xff :: List.replicate 8 0) ++
    BlockHandle.encodeTo ⟨2 ^ 63, 0⟩ ++ List.replicate 12 0

def wrapLast : InternalKey Bytes := ⟨List.replicate 10 0xff, packSequenceAndType 1 .value⟩

def wrapEntries (rest : Bytes) : List (Bytes × Bytes) :=
  [(wrapHead ++ rest, []), (internalKeyBytes wrapLast, [])]

theorem Internal.findShortestSeparator_of_eq {user : Comparator} {start limit : Bytes}
    (h : user.findShortestSeparator (extractUserKey start) (extractUserKey limit) =
      extractUserKey start) : Internal.findShortestSeparator user start limit = start := by
  unfold Internal.findShortestSeparator
  dsimp only
  rw [h, if_neg fun hlt => lt_irrefl _ hlt.1]

section Wrapped

variable {rest : Bytes}

theorem extractUserKey_wrapped (hrest : 8 ≤ rest.length) :
    extractUserKey (wrapHead ++ rest) =
      0xfe :: (wrapHead.tail ++ rest.take (rest.length - 8)) := by
  have hhead : wrapHead.length = 50 := rfl
  unfold extractUserKey
  rw [length_append, hhead, Nat.add_sub_assoc hrest, ← hhead, take_length_add_append]
  rfl

theorem separator_wrapped (hrest : 8 ≤ rest.length) :
    TableOrder.internal.comparator.findShortestSeparator (wrapHead ++ rest)
        (internalKeyBytes wrapLast) =
      wrapHead ++ rest := by
  refine Internal.findShortestSeparator_of_eq ?_
  rw [extractUserKey_wrapped hrest]
  rfl

theorem length_pairBlock (key : Bytes) :
    (pairBlock (key, [])).length = (entryHeader 0 key.length 0).length + key.length + 8 := by
  show (([] ++ (entryHeader 0 (key.length - 0) 0 ++ (key.drop 0 ++ []))) ++
    ((encodeFixed32 (UInt32.ofNat 0) ++ []) ++ encodeFixed32 (UInt32.ofNat 1))).length = _
  simp only [length_append, nil_append, append_nil, drop_zero, Nat.sub_zero]
  rfl

theorem length_pairBlock_wrapped (hrest : rest.length = 2 ^ 32 - 41) :
    (pairBlock (wrapHead ++ rest, [])).length = 2 ^ 32 + 20 := by
  have hlen : (wrapHead ++ rest).length = 2 ^ 32 + 9 := by
    rw [length_append, hrest]
    rfl
  rw [length_pairBlock, hlen]
  decide +kernel

def wrapTail : Bytes :=
  BlockHandle.encodeTo ⟨0, 2 ^ 32 + 20⟩ ++ ([0, 18, 6] ++ internalKeyBytes wrapLast) ++
    BlockHandle.encodeTo ⟨2 ^ 32 + 25, 29⟩ ++ [0, 0, 0, 0, 18, 0, 0, 0]

theorem addAll_one_pair (e e' : Bytes × Bytes) :
    BlockBuilder.addAll 1 [e, e'] =
      ⟨encodeEntry 0 e.1 e.2 ++ encodeEntry 0 e'.1 e'.2,
        [0, (encodeEntry 0 e.1 e.2).length % 2 ^ 32], 1, e'.1⟩ := rfl

theorem encodeEntry_wrapped (hrest : rest.length = 2 ^ 32 - 41) :
    encodeEntry 0 (wrapHead ++ rest) (BlockHandle.encodeTo ⟨0, 2 ^ 32 + 20⟩) =
      [0, 9, 6] ++ (wrapHead ++ rest ++ BlockHandle.encodeTo ⟨0, 2 ^ 32 + 20⟩) := by
  have hlen : (wrapHead ++ rest).length = 2 ^ 32 + 9 := by
    rw [length_append, hrest]
    rfl
  unfold encodeEntry
  rw [drop_zero, Nat.sub_zero, hlen]
  rfl

theorem indexBytes_wrapped (crc : Checksum) (hrest : rest.length = 2 ^ 32 - 41) :
    TableLayout.indexBytes [pairFirst (wrapHead ++ rest, []) (internalKeyBytes wrapLast, []),
      pairSecond crc (wrapHead ++ rest, []) (internalKeyBytes wrapLast, [])] =
      ([0, 9, 6] ++ wrapHead) ++ ((rest ++ wrapTail) ++ [2, 0, 0, 0]) := by
  have hfirst : (pairFirst (wrapHead ++ rest, []) (internalKeyBytes wrapLast, [])).indexEntry =
      (wrapHead ++ rest, BlockHandle.encodeTo ⟨0, 2 ^ 32 + 20⟩) := by
    unfold pairFirst IndexedBlock.indexEntry
    dsimp only
    rw [separator_wrapped (by omega), length_pairBlock_wrapped hrest]
  have hsecond :
      (pairSecond crc (wrapHead ++ rest, []) (internalKeyBytes wrapLast, [])).indexEntry =
        (internalKeyBytes wrapLast, BlockHandle.encodeTo ⟨2 ^ 32 + 25, 29⟩) := by
    unfold pairSecond IndexedBlock.indexEntry
    dsimp only
    rw [length_rawBlock, length_pairBlock_wrapped hrest, length_pairBlock]
    refine Prod.ext ?_ ?_ <;> decide +kernel
  unfold TableLayout.indexBytes
  rw [map_cons, map_singleton, hfirst, hsecond, addAll_one_pair]
  have hsize : ([0, 9, 6] ++ (wrapHead ++ rest ++ BlockHandle.encodeTo ⟨0, 2 ^ 32 + 20⟩)).length %
      2 ^ 32 = 18 := by
    rw [length_append, length_append, length_append, hrest]
    rfl
  dsimp only
  rw [encodeEntry_wrapped hrest, hsize]
  unfold BlockBuilder.finish wrapTail
  dsimp only
  simp only [append_assoc]
  rfl

end Wrapped

def shortKey (b : UInt8) : Bytes := b :: List.replicate 8 0

section Seek

variable {body : Bytes} (hbody : body.length = 2 ^ 32)

include hbody

theorem newIterator_wrapped :
    (Block.new (([0, 9, 6] ++ wrapHead) ++ (body ++ [2, 0, 0, 0]))).newIterator =
      .block (BlockIter.new (([0, 9, 6] ++ wrapHead) ++ (body ++ [2, 0, 0, 0])) 45 2) := by
  have hhead : ([0, 9, 6] ++ wrapHead).length = 53 := rfl
  generalize [0, 9, 6] ++ wrapHead = head at hhead
  have hsize : (head ++ (body ++ [2, 0, 0, 0])).length = 2 ^ 32 + 57 := by
    rw [length_append, length_append, hhead, hbody]
    rfl
  have hnum : Block.numRestarts (head ++ (body ++ [2, 0, 0, 0])) (2 ^ 32 + 57) = 2 := by
    unfold Block.numRestarts
    rw [← append_assoc, drop_left' (by rw [length_append, hhead, hbody]; rfl)]
    rfl
  have hnew : Block.new (head ++ (body ++ [2, 0, 0, 0])) =
      ⟨head ++ (body ++ [2, 0, 0, 0]), 2 ^ 32 + 57, 45⟩ := by
    unfold Block.new
    dsimp only
    rw [hsize, hnum, if_neg (by decide), if_neg (by decide)]
    rfl
  rw [hnew]
  unfold Block.newIterator
  dsimp only
  rw [hnum, if_neg (by decide), if_neg (by decide)]

end Seek

def wrapTarget : InternalKey Bytes := lookupKey [0xfe, 0xff] kMaxSequenceNumber

theorem seek_wrapped (tail : Bytes) :
    BlockIter.seek TableOrder.internal.comparator.compare (internalKeyBytes wrapTarget)
      (BlockIter.new (([0, 9, 6] ++ wrapHead) ++ tail) 45 2) =
    ⟨([0, 9, 6] ++ wrapHead) ++ tail, 45, 2, 18, 1, shortKey 0xff, 30, 11, none⟩ := by
  have htake : (([0, 9, 6] ++ wrapHead) ++ tail).take 45 = [0, 9, 6] ++ wrapHead.take 42 := rfl
  have hpoint : (decodeFixed32 ((([0, 9, 6] ++ wrapHead) ++ tail).drop (45 + 1 * 4))).toNat = 0 :=
    rfl
  generalize ([0, 9, 6] ++ wrapHead) ++ tail = data at htake hpoint
  have hfirst : decodeEntry ((data.take 45).drop 0) =
      some (0, 9, 6, (wrapHead.take 42)) := by
    rw [htake]
    decide +kernel
  have hinner : decodeEntry ((data.take 45).drop 18) =
      some (0, 9, 11, (wrapHead.take 42).drop 18) := by
    rw [htake]
    decide +kernel
  have hfind : (BlockIter.new data 45 2).findRestart TableOrder.internal.comparator.compare
      (internalKeyBytes wrapTarget) 2 0 1 = some 1 := by
    unfold BlockIter.findRestart
    rw [if_pos (by decide)]
    have hmid : (BlockIter.new data 45 2).getRestartPoint ((0 + 1 + 1) % 2 ^ 32 / 2) = 0 := hpoint
    dsimp only
    rw [hmid]
    rw [show (BlockIter.new data 45 2).restarts = 45 from rfl,
      show (BlockIter.new data 45 2).data = data from rfl, hfirst]
    rfl
  have hstart : (BlockIter.new data 45 2).seekToRestartPoint 1 =
      ⟨data, 45, 2, 45, 1, [], 0, 0, none⟩ := by
    unfold BlockIter.seekToRestartPoint BlockIter.getRestartPoint
    show BlockIter.mk data 45 2 45 1 [] (decodeFixed32 (data.drop (45 + 1 * 4))).toNat 0 none = _
    rw [hpoint]
  have hparse : BlockIter.parseNextKey ⟨data, 45, 2, 45, 1, [], 0, 0, none⟩ =
      (true, ⟨data, 45, 2, 0, 1, shortKey 0xfe, 12, 6, none⟩) := by
    unfold BlockIter.parseNextKey
    simp only [BlockIter.nextEntryOffset, Nat.add_zero, Nat.zero_mod, hfirst]
    rfl
  have hparse' : BlockIter.parseNextKey ⟨data, 45, 2, 0, 1, shortKey 0xfe, 12, 6, none⟩ =
      (true, ⟨data, 45, 2, 18, 1, shortKey 0xff, 30, 11, none⟩) := by
    unfold BlockIter.parseNextKey
    simp only [BlockIter.nextEntryOffset, Nat.reduceAdd, Nat.reducePow, Nat.reduceMod, hinner]
    rfl
  have hvalid : (BlockIter.new data 45 2).valid = false := rfl
  unfold BlockIter.seek
  dsimp only
  rw [hvalid, if_neg Bool.false_ne_true, if_neg (by simp), if_neg (by decide), if_neg (by decide),
    show (BlockIter.new data 45 2).numRestarts = 2 from rfl, hfind]
  dsimp only
  rw [if_neg fun hboth => by cases hboth.2]
  show BlockIter.scanFor TableOrder.internal.comparator.compare (internalKeyBytes wrapTarget) 46
    ((BlockIter.new data 45 2).seekToRestartPoint 1) = _
  rw [hstart, BlockIter.scanFor, hparse]
  show BlockIter.scanFor TableOrder.internal.comparator.compare (internalKeyBytes wrapTarget) 45
    ⟨data, 45, 2, 0, 1, shortKey 0xfe, 12, 6, none⟩ = _
  rw [BlockIter.scanFor, hparse']
  rfl

theorem approximateOffset_wrapped (crc : Checksum) {topt : TableOptions}
    (htopt : topt.comparator = TableOrder.internal.comparator) {rest file : Bytes}
    (hrest : rest.length = 2 ^ 32 - 41)
    (hfile : file = (TableBuilder.build crc pairOptions (wrapEntries rest)).file) :
    file.length < 2 ^ 63 ∧ (∃ t, TableReader.openTable crc topt file file.length = .ok t) ∧
      TableReader.cacheApproximateOffsetOf crc topt file file.length (internalKeyBytes wrapTarget) =
        2 ^ 63 := by
  unfold wrapEntries at hfile
  obtain ⟨footer, L, hlength⟩ :=
    pair_layout crc (wrapHead ++ rest, []) (internalKeyBytes wrapLast, [])
  have htail : (rest ++ wrapTail).length = 2 ^ 32 := by
    rw [length_append, hrest]
    rfl
  have hindex := indexBytes_wrapped crc hrest
  generalize [pairFirst (wrapHead ++ rest, []) (internalKeyBytes wrapLast, []),
    pairSecond crc (wrapHead ++ rest, []) (internalKeyBytes wrapLast, [])] = blocks
    at L hlength hindex
  have hlast : (pairBlock (internalKeyBytes wrapLast, [])).length = 29 := rfl
  have hlt : file.length < 2 ^ 63 := by
    rw [hfile, hlength, hindex, length_pairBlock_wrapped hrest, hlast, length_append,
      length_append, length_append, htail]
    decide
  rw [← hfile] at L
  have hopen := L.openTable_eq (by omega) topt
  refine ⟨hlt, ⟨_, hopen⟩, ?_⟩
  have hseek := seek_wrapped ((rest ++ wrapTail) ++ [2, 0, 0, 0])
  rw [← htopt] at hseek
  rw [L.cacheApproximateOffsetOf_eq (by omega)]
  have hdecode : BlockHandle.decodeFrom (BlockHandle.encodeTo ⟨2 ^ 63, 0⟩) =
      .ok (⟨2 ^ 63, 0⟩, []) := by decide +kernel
  have hvalue : (BlockIter.mk (([0, 9, 6] ++ wrapHead) ++ ((rest ++ wrapTail) ++ [2, 0, 0, 0])) 45 2
      18 1 (shortKey 0xff) 30 11 none).value = BlockHandle.encodeTo ⟨2 ^ 63, 0⟩ := by
    generalize (rest ++ wrapTail) ++ [2, 0, 0, 0] = tail
    rfl
  have hcurrent : (Iter.machine topt.comparator.compare).current
      ((Iter.machine topt.comparator.compare).seek (internalKeyBytes wrapTarget)
        (Block.new (TableLayout.indexBytes blocks)).newIterator) =
      some (shortKey 0xff, BlockHandle.encodeTo ⟨2 ^ 63, 0⟩) := by
    rw [hindex, newIterator_wrapped htail]
    show Iter.current (.block (BlockIter.seek _ _ _)) = _
    rw [hseek, ← hvalue]
    rfl
  exact TableReader.approximateOffsetOf_some (t := TableLayout.table crc topt file _ footer)
    hcurrent hdecode

end LevelDB
