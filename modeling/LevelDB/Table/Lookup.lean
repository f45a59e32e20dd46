/-
  Point lookups in table files (`Table::InternalGet` in `table/table.cc`).

  A built file of internal keys is a `Table`: its blocks with their separators, and the filter that
  `Open` finds. `InternalGet` on the bytes is `Table.internalGet` on it.
-/
import LevelDB.Table.BlockRoundTrip
import LevelDB.Table.Table
import LevelDB.Table.TableReader

namespace LevelDB

open List Option Cursor

/-- A stored entry by what `InternalKeyComparator` compares. -/
def tableEntry (e : Bytes × Bytes) : Entry Bytes Bytes := ⟨TableOrder.internal.rank e.1, e.2⟩

theorem rank_append_encodeFixed64 (k : Bytes) {tag : Nat} (h : tag < 2 ^ 64) :
    TableOrder.internal.rank (k ++ encodeFixed64 tag) = ⟨k, tag⟩ := by
  have hread := decodeFixed64_encodeFixed64 h []
  rw [append_nil] at hread
  unfold TableOrder.rank extractUserKey extractTag
  dsimp only
  rw [length_append, length_encodeFixed64, Nat.add_sub_cancel, take_left, drop_left,
    hread]

theorem rank_lookupKeyBytes (k : Bytes) {s : Nat} (h : s ≤ kMaxSequenceNumber) :
    TableOrder.internal.rank (lookupKeyBytes k s) = lookupKey k s := by
  refine rank_append_encodeFixed64 k ?_
  have hmax : kMaxSequenceNumber = 2 ^ 56 - 1 := rfl
  rw [packSequenceAndType_eq]
  simp only [kValueTypeForSeek, ValueType.toNat]
  omega

/-- A block as a block of the `Table`. -/
def IndexedBlock.dataBlock (x : IndexedBlock) : DataBlock Bytes Bytes :=
  ⟨TableOrder.internal.rank x.separator, x.handle.offset, x.entries.map tableEntry⟩

theorem BlockLayout.seek_new (B : BlockLayout) (o : TableOrder)
    (hsorted : SortedList.Strict (fun e => o.rank e.1) B.entries) (t : Bytes) :
    (Iter.machine o.comparator.compare).observe ((Iter.machine o.comparator.compare).seek t
      (Block.new B.bytes).newIterator) =
      (SortedList.seek (fun e => o.rank e.1) B.entries (o.rank t), none) := by
  have hfaithful := B.faithful o.compares fun (_ : Bytes) (_ : True) => hsorted
  obtain ⟨k, hk⟩ := Machine.exists_cutAt hsorted (o.rank t)
  have hseek := hfaithful.seek B.tracks_new trivial hk
  unfold Machine.observe
  rw [hfaithful.current hseek, hfaithful.error hseek, hk.find_eq]

/-! ## `InternalGet` by its two seeks -/

namespace TableReader

variable {crc : Checksum} {t : TableReader} {verifyChecksums : Bool} {k : Bytes}

theorem internalGet_none
    (h : (Iter.machine t.options.comparator.compare).observe
      ((Iter.machine t.options.comparator.compare).seek k t.indexBlock.newIterator) = (none, none)) :
    t.internalGet crc verifyChecksums k = (none, none) := by
  simp_all [Machine.observe_eq_iff, internalGet]

theorem internalGet_some {indexKey handleValue : Bytes} {found : Option (Bytes × Bytes)}
    (h : (Iter.machine t.options.comparator.compare).observe
      ((Iter.machine t.options.comparator.compare).seek k t.indexBlock.newIterator) =
        (some (indexKey, handleValue), none))
    (hblock : (Iter.machine t.options.comparator.compare).observe
      ((Iter.machine t.options.comparator.compare).seek k
        (t.blockReader crc verifyChecksums handleValue)) = (found, none)) :
    t.internalGet crc verifyChecksums k =
      (if t.rejects handleValue k then none else found, none) := by
  grind [Machine.observe_eq_iff, internalGet]

end TableReader

namespace TableLayout

variable {crc : Checksum} {opt : TableBuilderOptions} {es : List (Bytes × Bytes)} {file : Bytes}
  {blocks : List IndexedBlock} {metaEntries : List (Bytes × Bytes)} {footer : Footer}

/-! ## The filter -/

theorem readMeta_eq (L : TableLayout crc opt es file blocks metaEntries footer)
    (hfile : file.length < 2 ^ 32) (hinterval : 1 ≤ opt.blockRestartInterval) {topt : TableOptions}
    {policy : FilterPolicy} (hopt : opt.filterPolicy = some policy)
    (htopt : topt.filterPolicy = some policy) :
    ∃ filters dataEnd,
      filters = filterBlock policy ((blocks.map IndexedBlock.flushed).map filterInput) dataEnd ∧
      (filterBlockBytes filters).length < 2 ^ 32 ∧
      TableReader.readMeta crc topt file footer =
        some (FilterBlockReader.new policy (filterBlockBytes filters)) := by
  obtain ⟨hnone, -⟩ | ⟨p, handle, dataEnd, hp, hentries, hstored⟩ := L.filter
  · rw [hopt] at hnone
    cases hnone
  · obtain rfl := Option.some.inj (hopt.symm.trans hp)
    have hfits := hstored.fits
    refine ⟨_, dataEnd, rfl, by omega, ?_⟩
    have hmetafits := L.metaindex.fits
    have hsmall : (opt.blockBytes metaEntries).length < 2 ^ 32 := by omega
    obtain ⟨B, hbytes, hB⟩ := build_layout hinterval hsmall
    have hstrict : SortedList.Strict (fun e => TableOrder.bytewise.rank e.1) B.entries := by
      rw [hB, hentries]
      exact pairwise_singleton _ _
    have hseek := B.seek_new .bytewise hstrict policy.metaKey
    have hfound : SortedList.seek (fun e => TableOrder.bytewise.rank e.1) B.entries
        (TableOrder.bytewise.rank policy.metaKey) = some (policy.metaKey, handle.encodeTo) := by
      rw [hB, hentries]
      exact find?_cons_of_pos (decide_eq_true (le_refl _))
    rw [hfound] at hseek
    have hcurrent := congrArg Prod.fst hseek
    have hdecode : BlockHandle.decodeFrom handle.encodeTo = .ok (handle, []) := by
      have hread := BlockHandle.decodeFrom_encodeTo (h := handle) (by omega) (by omega) []
      rwa [append_nil] at hread
    unfold TableReader.readMeta
    rw [htopt]
    dsimp only
    rw [L.metaindex.readBlock_eq (by omega)]
    dsimp only
    have hblock : opt.blockBytes metaEntries = B.bytes := hbytes.symm
    rw [hblock]
    change Iter.current ((Iter.machine Bytewise.comparator.compare).seek policy.metaKey
      (Block.new B.bytes).newIterator) = _ at hcurrent
    rw [hcurrent]
    dsimp only
    rw [if_pos rfl]
    unfold TableReader.readFilter
    rw [hdecode]
    dsimp only
    rw [hstored.readBlock_eq (by omega)]

/-! ## The table -/

theorem flatMap_dataBlock (blocks : List IndexedBlock) :
    (blocks.map IndexedBlock.dataBlock).flatMap DataBlock.entries =
      (blocks.flatMap IndexedBlock.entries).map tableEntry := by
  rw [flatMap_map, map_flatMap]
  rfl

theorem separator_userKey (L : TableLayout crc opt es file blocks metaEntries footer)
    (hcmp : opt.comparator = TableOrder.internal.comparator)
    (hsorted : SortedList.Strict (fun e => TableOrder.internal.rank e.1) es) {i : Nat}
    {x : IndexedBlock} (hx : blocks[i]? = some x) :
    (∃ e ∈ x.entries, e.1 = x.separator) ∨ ∀ y ∈ blocks.drop (i + 1), ∀ e ∈ y.entries,
      extractUserKey x.separator < extractUserKey e.1 := by
  obtain ⟨a, hax, -, ⟨b, hsep, hlt, hnext⟩ | ⟨hlast, -⟩⟩ := L.separator_cases hsorted hx
  · rw [hcmp] at hsep
    obtain heq | ⟨-, -, hbefore⟩ := TableOrder.separator_user hlt
    · exact .inl ⟨a, hax, by rw [hsep, heq]⟩
    · right
      intro y hy e he
      rw [hsep]
      exact hbefore.trans_le (InternalKey.userKey_mono (hnext y hy e he))
  · right
    intro y hy
    rw [hlast] at hy
    exact absurd hy not_mem_nil

/-- A built file as a `Table`, with a filter that lets the keys of every block pass. -/
def toTable (L : TableLayout crc opt es file blocks metaEntries footer)
    (hcmp : opt.comparator = TableOrder.internal.comparator)
    (hlen : ∀ e ∈ es, TableOrder.internal.WellFormed e.1)
    (hwf : ∀ e ∈ es, (TableOrder.internal.rank e.1).WellFormed)
    (hsorted : SortedList.Strict (fun e => TableOrder.internal.rank e.1) es)
    (filter : Option (Nat → Bytes → Bool))
    (hfilter : ∀ f, filter = some f → ∀ x ∈ blocks, ∀ e ∈ x.entries,
      f x.handle.offset (extractUserKey e.1) = true) : Table Bytes Bytes where
  blocks := blocks.map IndexedBlock.dataBlock
  filter := filter
  sorted := by
    rw [flatMap_dataBlock, ← L.entries]
    exact pairwise_map.mpr hsorted
  wellFormed := by
    intro b hb e he
    obtain ⟨x, hx, rfl⟩ := List.mem_map.mp hb
    obtain ⟨e', he', rfl⟩ := List.mem_map.mp he
    refine hwf e' ?_
    rw [L.entries]
    exact mem_flatMap.mpr ⟨x, hx, he'⟩
  le_separator := by
    intro b hb e he
    obtain ⟨x, hx, rfl⟩ := List.mem_map.mp hb
    obtain ⟨e', he', rfl⟩ := List.mem_map.mp he
    obtain ⟨i, hi, rfl⟩ := getElem_of_mem hx
    exact (L.separator_bounds hcmp hlen hsorted (getElem?_eq_getElem hi)).1 e' he'
  separator_lt := by
    refine pairwise_map.mpr (pairwise_iff_getElem.mpr ?_)
    intro i j hi hj hij e he
    obtain ⟨e', he', rfl⟩ := List.mem_map.mp he
    exact (L.separator_bounds hcmp hlen hsorted (getElem?_eq_getElem hi)).2 _
      (mem_drop_of_lt hij hj) e' he'
  separator_user := by
    refine pairwise_map.mpr (pairwise_iff_getElem.mpr ?_)
    intro i j hi hj hij
    obtain ⟨e, he, heq⟩ | hlater := L.separator_userKey hcmp hsorted (getElem?_eq_getElem hi)
    · refine .inl ⟨tableEntry e, List.mem_map_of_mem he, ?_⟩
      show TableOrder.internal.rank e.1 = _
      rw [heq]
      rfl
    · right
      intro e he
      obtain ⟨e', he', rfl⟩ := List.mem_map.mp he
      exact hlater _ (mem_drop_of_lt hij hj) e' he'
  filter_complete := by
    intro f hf b hb e he
    obtain ⟨x, hx, rfl⟩ := List.mem_map.mp hb
    obtain ⟨e', he', rfl⟩ := List.mem_map.mp he
    exact hfilter f hf x hx e' he'

/-- The reader of a filter probes with user keys as `filter` does. -/
def Probes (reader : Option FilterBlockReader) (filter : Option (Nat → Bytes → Bool)) : Prop :=
  (reader = none ∧ filter = none) ∨ ∃ r f, reader = some r ∧ filter = some f ∧
    ∀ offset key, r.keyMayMatch offset key = f offset (extractUserKey key)

theorem rejects_eq (L : TableLayout crc opt es file blocks metaEntries footer)
    (hfile : file.length < 2 ^ 64) {topt : TableOptions} {filter : Option (Nat → Bytes → Bool)}
    (hprobes : Probes (TableReader.readMeta crc topt file footer) filter) {x : IndexedBlock}
    (hx : x ∈ blocks) (k : Bytes) :
    (table crc topt file blocks footer).rejects x.handle.encodeTo k =
      filter.any fun f => !f x.handle.offset (extractUserKey k) := by
  have hmeta : (table crc topt file blocks footer).filter =
      TableReader.readMeta crc topt file footer := rfl
  unfold TableReader.rejects
  rw [hmeta, L.decodeFrom_handle hfile hx]
  obtain ⟨hreader, hnone⟩ | ⟨r, f, hreader, hsome, heq⟩ := hprobes
  · rw [hreader, hnone]
    rfl
  · simp_all

theorem seek_blockReader (L : TableLayout crc opt es file blocks metaEntries footer)
    (hfile : file.length < 2 ^ 32) (hinterval : 1 ≤ opt.blockRestartInterval) {o : TableOrder}
    (hsorted : SortedList.Strict (fun e => o.rank e.1) es) {topt : TableOptions}
    (htopt : topt.comparator = o.comparator) (verifyChecksums : Bool) {x : IndexedBlock}
    (hx : x ∈ blocks) (k : Bytes) :
    (Iter.machine topt.comparator.compare).observe ((Iter.machine topt.comparator.compare).seek k
      ((table crc topt file blocks footer).blockReader crc verifyChecksums x.handle.encodeTo)) =
      (SortedList.seek (fun e => o.rank e.1) x.entries (o.rank k), none) := by
  obtain ⟨B, hbytes, hB⟩ := L.exists_data hfile hinterval hx
  have hstrict : SortedList.Strict (fun e => o.rank e.1) B.entries := by
    rw [hB]
    rw [L.entries] at hsorted
    exact (pairwise_flatMap.mp hsorted).1 x hx
  rw [L.blockReader_eq (by omega) topt verifyChecksums hx, ← hbytes, htopt, ← hB]
  exact B.seek_new o hstrict k

theorem seek_index (L : TableLayout crc opt es file blocks metaEntries footer)
    (hindex : (indexBytes blocks).length < 2 ^ 32) {o : TableOrder}
    (hcmp : opt.comparator = o.comparator)
    (hlen : ∀ e ∈ es, o.WellFormed e.1)
    (hsorted : SortedList.Strict (fun e => o.rank e.1) es) {topt : TableOptions}
    (htopt : topt.comparator = o.comparator) (k : Bytes) :
    (Iter.machine topt.comparator.compare).observe ((Iter.machine topt.comparator.compare).seek k
      (Block.new (indexBytes blocks)).newIterator) =
      ((blocks.find? fun x => decide (o.rank k ≤ o.rank x.separator)).map IndexedBlock.indexEntry,
        none) := by
  obtain ⟨I, hbytes, hI⟩ := exists_index blocks hindex
  have hstrict : SortedList.Strict (fun e => o.rank e.1) I.entries := by
    have hindex := L.separators_strict hcmp hlen hsorted
    rw [List.map_map] at hindex
    rw [hI]
    exact hindex
  have hseek := I.seek_new o hstrict k
  rw [hbytes, hI] at hseek
  rw [htopt, hseek]
  exact congrArg (·, none) find?_map

/-- **A lookup in the file** is a lookup in the `Table`; it finds an entry that was added, and
    there is no error. -/
theorem internalGet_refines (L : TableLayout crc opt es file blocks metaEntries footer)
    (hfile : file.length < 2 ^ 32) (hinterval : 1 ≤ opt.blockRestartInterval)
    (hcmp : opt.comparator = TableOrder.internal.comparator)
    (hlen : ∀ e ∈ es, TableOrder.internal.WellFormed e.1)
    (hwf : ∀ e ∈ es, (TableOrder.internal.rank e.1).WellFormed)
    (hsorted : SortedList.Strict (fun e : Bytes × Bytes => TableOrder.internal.rank e.1) es)
    {filter : Option (Nat → Bytes → Bool)}
    (hfilter : ∀ f, filter = some f → ∀ x ∈ blocks, ∀ e ∈ x.entries,
      f x.handle.offset (extractUserKey e.1) = true)
    {topt : TableOptions} (htopt : topt.comparator = TableOrder.internal.comparator)
    (hprobes : Probes (TableReader.readMeta crc topt file footer) filter) (verifyChecksums : Bool)
    (k : Bytes) :
    ∃ found, (table crc topt file blocks footer).internalGet crc verifyChecksums k = (found, none) ∧
      found.map tableEntry = (L.toTable hcmp hlen hwf hsorted filter hfilter).internalGet
        (TableOrder.internal.rank k) ∧
      ∀ e, found = some e → e ∈ es := by
  have hindex := L.seek_index (L.indexBytes_lt hfile) hcmp hlen hsorted htopt k
  have hblock : (L.toTable hcmp hlen hwf hsorted filter hfilter).indexSeek
      (TableOrder.internal.rank k) =
      (blocks.find? fun x => decide (TableOrder.internal.rank k ≤
        TableOrder.internal.rank x.separator)).map IndexedBlock.dataBlock := by
    show (blocks.map IndexedBlock.dataBlock).find? _ = _
    rw [find?_map]
    rfl
  unfold Table.internalGet
  rw [hblock]
  cases hfind : blocks.find? fun x => decide (TableOrder.internal.rank k ≤
    TableOrder.internal.rank x.separator) with
  | none =>
    rw [hfind] at hindex
    exact ⟨none, TableReader.internalGet_none hindex, rfl, by rintro e ⟨⟩⟩
  | some x =>
    rw [hfind] at hindex
    have hx : x ∈ blocks := mem_of_find?_eq_some hfind
    have hseek := L.seek_blockReader hfile hinterval hsorted htopt verifyChecksums hx k
    refine ⟨_, TableReader.internalGet_some hindex hseek, ?_, ?_⟩
    · rw [L.rejects_eq (by omega) hprobes hx]
      have hmap : SortedList.seek Entry.key (x.entries.map tableEntry) (TableOrder.internal.rank k) =
          (SortedList.seek (fun e => TableOrder.internal.rank e.1) x.entries
            (TableOrder.internal.rank k)).map tableEntry := by
        unfold SortedList.seek
        rw [find?_map]
        rfl
      have hpolicy : (L.toTable hcmp hlen hwf hsorted filter hfilter).filter = filter := rfl
      rw [hpolicy, map_some]
      cases filter with
      | none => exact hmap.symm
      | some keyMayMatch =>
        show Option.map tableEntry (if (!keyMayMatch x.handle.offset (extractUserKey k)) = true then
          none else _) = if keyMayMatch x.handle.offset (extractUserKey k) = true then
            SortedList.seek Entry.key (x.entries.map tableEntry) (TableOrder.internal.rank k) else none
        rw [hmap]
        cases keyMayMatch x.handle.offset (extractUserKey k) <;> rfl
    · grind [L.entries, SortedList.mem_of_seek_eq_some]

end TableLayout

theorem TableLayout.exists_probes {crc : Checksum} {opt : TableBuilderOptions}
    {es : List (Bytes × Bytes)} {file : Bytes} {blocks : List IndexedBlock}
    {metaEntries : List (Bytes × Bytes)} {footer : Footer}
    (L : TableLayout crc opt es file blocks metaEntries footer) (hfile : file.length < 2 ^ 32)
    (hinterval : 1 ≤ opt.blockRestartInterval) {policy : Option FilterPolicy}
    (hpolicy : ∀ p, policy = some p → p.NoFalseNegatives)
    (hopt : opt.filterPolicy = policy.map internalFilterPolicy) {topt : TableOptions}
    (htopt : topt.filterPolicy = opt.filterPolicy ∨ topt.filterPolicy = none) :
    ∃ filter, Probes (TableReader.readMeta crc topt file footer) filter ∧
      ∀ f, filter = some f → ∀ x ∈ blocks, ∀ e ∈ x.entries,
        f x.handle.offset (extractUserKey e.1) = true := by
  cases hread : topt.filterPolicy with
  | none =>
    refine ⟨none, .inl ⟨?_, rfl⟩, by rintro f ⟨⟩⟩
    unfold TableReader.readMeta
    rw [hread]
  | some q =>
    have hq : opt.filterPolicy = some q := by
      rw [hread] at htopt
      exact (htopt.resolve_right (by rintro ⟨⟩)).symm
    rw [hq] at hopt
    obtain ⟨p, hp, rfl⟩ := map_eq_some_iff.mp hopt.symm
    obtain ⟨filters, dataEnd, hfilters, hsize, hmeta⟩ := L.readMeta_eq hfile hinterval hq hread
    refine ⟨some (filterKeyMayMatch p filters), .inr ⟨_, _, hmeta, rfl, ?_⟩, ?_⟩
    · intro offset key
      rw [FilterBlockReader.keyMayMatch_eq _ (by
        rw [FilterBlockReader.length_filterBlockBytes] at hsize; omega)]
      rfl
    · intro f hf x hx e he
      obtain rfl := Option.some.inj hf
      have hincreasing : ((blocks.map IndexedBlock.flushed).map filterInput).Pairwise
          fun a b => a.1 ≤ b.1 := by
        rw [List.map_map]
        exact pairwise_map.mpr (L.increasing.imp fun hlt => hlt.le)
      have hmem : filterInput x.flushed ∈ (blocks.map IndexedBlock.flushed).map filterInput :=
        List.mem_map_of_mem (List.mem_map_of_mem hx)
      have hmatch := filterBlock_keyMayMatch (hpolicy p hp).internal hincreasing dataEnd hmem
        (List.mem_map_of_mem he)
      rw [← hfilters] at hmatch
      exact hmatch

section Truncated

def internalTableOptions : TableOptions := ⟨TableOrder.internal.comparator, none, false⟩

def singleIndex (key value : Bytes) : Bytes :=
  (BlockBuilder.addAll 1 [(TableOrder.internal.comparator.findShortSuccessor key,
    BlockHandle.encodeTo ⟨0, (singleBlock key value).length⟩)]).finish

theorem build_single (crc : Checksum) {key value : Bytes} (hvalue : 4096 ≤ value.length) :
    ∃ footer : Footer, (TableBuilder.build crc internalBuilderOptions [(key, value)]).file =
      rawBlock crc (singleBlock key value) ++
        rawBlock crc (internalBuilderOptions.blockBytes []) ++
        rawBlock crc (singleIndex key value) ++ footer.encodeTo := by
  have hadd : TableBuilder.addAll crc internalBuilderOptions [(key, value)] =
      ((TableBuilder.new internalBuilderOptions).addEntry internalBuilderOptions key value).flush
        crc := by
    refine if_pos ?_
    show 4096 ≤ ([] ++ encodeEntry 0 key value).length + 1 * 4 + 4
    unfold encodeEntry
    rw [nil_append, length_append, length_append]
    omega
  unfold TableBuilder.build
  rw [hadd]
  exact ⟨_, rfl⟩

variable {value : Bytes}

theorem length_encodeVarint32_le (v : Nat) : (encodeVarint32 v).length ≤ 5 := by
  unfold encodeVarint32
  split_ifs <;> simp

theorem length_singleEntry_le (key handleValue : Bytes) :
    (BlockBuilder.addAll 1 [(key, handleValue)]).finish.length ≤
      key.length + handleValue.length + 23 := by
  have hshared := length_encodeVarint32_le (0 % 2 ^ 32)
  have hkey := length_encodeVarint32_le ((key.length - 0) % 2 ^ 32)
  have hvalue := length_encodeVarint32_le (handleValue.length % 2 ^ 32)
  show (([] ++ (entryHeader 0 (key.length - 0) handleValue.length ++ (key.drop 0 ++ handleValue))) ++
    ((encodeFixed32 (UInt32.ofNat 0) ++ []) ++ encodeFixed32 (UInt32.ofNat 1))).length ≤ _
  unfold entryHeader
  simp only [length_append, length_nil, drop_zero, length_encodeFixed32]
  omega

theorem TableLayout.single_block {crc : Checksum} {opt : TableBuilderOptions} {e : Bytes × Bytes}
    {file : Bytes} {blocks : List IndexedBlock} {metaEntries : List (Bytes × Bytes)} {footer : Footer}
    (L : TableLayout crc opt [e] file blocks metaEntries footer) :
    ∃ x, blocks = [x] ∧ x.entries = [e] ∧ x.separator = opt.comparator.findShortSuccessor e.1 := by
  have hentries := L.entries
  match blocks, L with
  | [], _ => cases hentries
  | [x], L =>
    rw [flatMap_singleton] at hentries
    refine ⟨x, rfl, hentries.symm, ?_⟩
    obtain ⟨a, b, -, hb, -⟩ | ⟨-, a, ha, hsep⟩ := L.separated 0 x rfl
    · change [e][([x].flatMap IndexedBlock.entries).length]? = some b at hb
      rw [flatMap_singleton, ← hentries] at hb
      cases hb
    · rw [← hentries] at ha
      obtain rfl : e = a := Option.some.inj ha
      exact hsep
  | x :: y :: rest, L =>
    have hx := length_pos_of_ne_nil (L.nonempty x mem_cons_self)
    have hy := length_pos_of_ne_nil
      (L.nonempty y (mem_cons_of_mem _ mem_cons_self))
    have hlen := congrArg List.length hentries
    rw [flatMap_cons, flatMap_cons, length_append, length_append,
      length_singleton] at hlen
    omega

theorem internalGet_single (crc : Checksum) (hlen : value.length = 2 ^ 32)
    (hzero : value.take 4 = [0, 0, 0, 0]) :
    ∃ t, TableReader.openTable crc internalTableOptions
        (TableBuilder.build crc internalBuilderOptions [(bigKey, value)]).file
        (TableBuilder.build crc internalBuilderOptions [(bigKey, value)]).offset = .ok t ∧
      t.internalGet crc false bigKey = (some (bigKey, []), none) := by
  obtain ⟨hoffset, blocks, metaEntries, footer, L⟩ :=
    table_layout crc internalBuilderOptions [(bigKey, value)]
  obtain ⟨footer', hbuild⟩ := @build_single crc bigKey value (by rw [hlen]; decide)
  have hfile : (TableBuilder.build crc internalBuilderOptions [(bigKey, value)]).file.length <
      2 ^ 64 := by
    have hblock : (singleBlock bigKey value).length = 2 ^ 32 + 19 := by
      rw [singleBlock_eq hlen, length_append, length_append, length_append, hlen]
      rfl
    have hindex : (singleIndex bigKey value).length ≤ 8 + 20 + 23 :=
      (length_singleEntry_le bigKey _).trans (Nat.add_le_add_right (Nat.add_le_add_left
        (BlockHandle.length_encodeTo_le _) _) _)
    have hmeta : (internalBuilderOptions.blockBytes []).length = 8 := rfl
    rw [hbuild]
    simp only [length_append, length_rawBlock, Footer.length_encodeTo, hblock, hmeta]
    unfold kBlockTrailerSize Footer.kEncodedLength BlockHandle.kMaxEncodedLength
    omega
  obtain ⟨x, rfl, hentries, hsep⟩ := L.single_block
  have hsep : x.separator = bigKey := hsep
  have hsmall : (TableLayout.indexBytes [x]).length < 2 ^ 32 := by
    have hle := length_singleEntry_le x.separator x.handle.encodeTo
    have hhandle := x.handle.length_encodeTo_le
    have hkey : bigKey.length = 8 := rfl
    unfold BlockHandle.kMaxEncodedLength at hhandle
    rw [hsep, hkey] at hle
    have hlt : 8 + x.handle.encodeTo.length + 23 < 2 ^ 32 := by omega
    refine lt_of_le_of_lt ?_ hlt
    rw [← hsep] at hle
    exact hle
  have hwf : ∀ e ∈ [(bigKey, value)], TableOrder.internal.WellFormed e.1 := by
    intro e he
    rw [mem_singleton.mp he]
    exact (by decide : 8 ≤ bigKey.length)
  have hindex := @TableLayout.seek_index _ _ _ _ _ _ _ L hsmall .internal rfl hwf
    (pairwise_singleton _ _) internalTableOptions rfl bigKey
  have hfind : ([x].find? fun y => decide (TableOrder.internal.rank bigKey ≤
      TableOrder.internal.rank y.separator)) = some x := by
    rw [find?_cons, hsep, decide_eq_true (le_refl _)]
  rw [hfind] at hindex
  have hseek := seek_singleBlock hlen hzero
  have hreader := L.blockReader_eq hfile internalTableOptions false mem_cons_self
  rw [hentries] at hreader
  rw [show (Block.new (singleBlock bigKey value)).newIterator = _ from hreader.symm] at hseek
  rw [hoffset]
  refine ⟨_, L.openTable_eq hfile internalTableOptions, ?_⟩
  exact TableReader.internalGet_some hindex hseek

end Truncated

end LevelDB
