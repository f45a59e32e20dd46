/-
  Table files as they are written (`table/table_builder.cc`).

  The index entry of a block is made when the first key of the next one is known. There are no
  write errors here, and the builder asserts nothing about the order of the keys.
-/
import LevelDB.Table.Block
import LevelDB.Table.Format
import LevelDB.Table.TwoLevelIterator

namespace LevelDB

open List Option

/-- `struct TableBuilderOptions`. Blocks are never compressed. -/
structure TableBuilderOptions where
  comparator : Comparator
  blockSize : Nat
  blockRestartInterval : Nat
  filterPolicy : Option FilterPolicy

/-- `TableBuilder::Rep`, with what has been appended to the file. -/
structure TableBuilder where
  file : Bytes
  offset : Nat
  dataBlock : BlockBuilder
  indexBlock : BlockBuilder
  lastKey : Bytes
  filterBlock : Option (FilterPolicy × FilterBlockBuilder)
  pendingIndexEntry : Bool
  pendingHandle : BlockHandle

def FilterPolicy.metaKey (p : FilterPolicy) : Bytes := bytesOf ("filter." ++ p.name)

namespace TableBuilder

variable (crc : Checksum) (opt : TableBuilderOptions)

/-- `TableBuilder::TableBuilder`. -/
def new : TableBuilder where
  file := []
  offset := 0
  dataBlock := .init
  indexBlock := .init
  lastKey := []
  filterBlock := opt.filterPolicy.map fun p => (p, FilterBlockBuilder.startBlock p ⟨[], []⟩ 0)
  pendingIndexEntry := false
  pendingHandle := ⟨2 ^ 64 - 1, 2 ^ 64 - 1⟩

/-- `WriteRawBlock`: the handle of the block, and the builder after it. -/
def writeRawBlock (r : TableBuilder) (contents : Bytes) : BlockHandle × TableBuilder :=
  (⟨r.offset, contents.length⟩,
    { r with
      file := r.file ++ rawBlock crc contents
      offset := r.offset + contents.length + kBlockTrailerSize })

def addIndexEntry (r : TableBuilder) (separator : Bytes) : TableBuilder :=
  { r with
    indexBlock := r.indexBlock.add 1 separator r.pendingHandle.encodeTo
    lastKey := separator
    pendingIndexEntry := false }

def addPendingIndexEntry (r : TableBuilder) (separator : Bytes → Bytes) : TableBuilder :=
  if r.pendingIndexEntry then r.addIndexEntry (separator r.lastKey) else r

def flush (r : TableBuilder) : TableBuilder :=
  if r.dataBlock.buffer.isEmpty then r
  else
    let (handle, r) := r.writeRawBlock crc r.dataBlock.finish
    { r with
      dataBlock := .init
      pendingHandle := handle
      pendingIndexEntry := true
      filterBlock := r.filterBlock.map fun (p, b) => (p, b.startBlock p r.offset) }

def addEntry (r : TableBuilder) (key value : Bytes) : TableBuilder :=
  { r with
    filterBlock := r.filterBlock.map fun (p, b) => (p, b.addKeys [key])
    lastKey := key
    dataBlock := r.dataBlock.add opt.blockRestartInterval key value }

def add (r : TableBuilder) (key value : Bytes) : TableBuilder :=
  let r := r.addPendingIndexEntry fun lastKey => opt.comparator.findShortestSeparator lastKey key
  let r := r.addEntry opt key value
  if opt.blockSize ≤ r.dataBlock.currentSizeEstimate then r.flush crc else r

def writeFilter (r : TableBuilder) : List (Bytes × Bytes) × TableBuilder :=
  match r.filterBlock with
  | none => ([], r)
  | some (p, b) =>
    let (handle, r) := r.writeRawBlock crc (filterBlockBytes (b.finish p))
    ([(p.metaKey, handle.encodeTo)], r)

def finish (r : TableBuilder) : TableBuilder :=
  let r := r.flush crc
  let (metaEntries, r) := r.writeFilter crc
  let (metaindexHandle, r) :=
    r.writeRawBlock crc (BlockBuilder.addAll opt.blockRestartInterval metaEntries).finish
  let r := r.addPendingIndexEntry opt.comparator.findShortSuccessor
  let (indexHandle, r) := r.writeRawBlock crc r.indexBlock.finish
  let footer := Footer.encodeTo ⟨metaindexHandle, indexHandle⟩
  { r with file := r.file ++ footer, offset := r.offset + footer.length }

/-- The builder after `Add` for each of the entries. -/
def addAll (es : List (Bytes × Bytes)) : TableBuilder :=
  es.foldl (fun r e => r.add crc opt e.1 e.2) (new opt)

/-- The builder after `Add` for each of the entries and `Finish`; `offset` is `FileSize()`. -/
def build (es : List (Bytes × Bytes)) : TableBuilder := (addAll crc opt es).finish crc opt

end TableBuilder

/-! ## What the builder has written -/

structure IndexedBlock where
  separator : Bytes
  handle : BlockHandle
  entries : List (Bytes × Bytes)

namespace IndexedBlock

def indexEntry (x : IndexedBlock) : Bytes × Bytes := (x.separator, x.handle.encodeTo)

def flushed (x : IndexedBlock) : BlockHandle × List (Bytes × Bytes) := (x.handle, x.entries)

end IndexedBlock

def TableBuilderOptions.blockBytes (opt : TableBuilderOptions) (es : List (Bytes × Bytes)) : Bytes :=
  (BlockBuilder.addAll opt.blockRestartInterval es).finish

def filterInput (b : BlockHandle × List (Bytes × Bytes)) : Nat × List Bytes :=
  (b.1.offset, b.2.map Prod.fst)

/-- How many entries there are in the first `i` blocks. -/
def entriesBefore (blocks : List IndexedBlock) (i : Nat) : Nat :=
  ((blocks.take i).flatMap IndexedBlock.entries).length

/-- The separator of block `i` is made of its last key and the first key of the next block. -/
def Separated (cmp : Comparator) (es : List (Bytes × Bytes)) (blocks : List IndexedBlock) (i : Nat)
    (x : IndexedBlock) : Prop :=
  ∃ a b, x.entries.getLast? = some a ∧ es[entriesBefore blocks (i + 1)]? = some b ∧
    x.separator = cmp.findShortestSeparator a.1 b.1

/-- The blocks that have been flushed, with those whose index entry has been written first, and
    the entries of the block in progress. -/
structure Building (crc : Checksum) (opt : TableBuilderOptions) (es : List (Bytes × Bytes))
    (r : TableBuilder) (done : List IndexedBlock)
    (pending : Option (BlockHandle × List (Bytes × Bytes))) (current : List (Bytes × Bytes)) :
    Prop where
  entries : es = (done.map IndexedBlock.flushed ++ pending.toList).flatMap Prod.snd ++ current
  offset : r.offset = r.file.length
  dataBlock : r.dataBlock = BlockBuilder.addAll opt.blockRestartInterval current
  indexBlock : r.indexBlock = BlockBuilder.addAll 1 (done.map IndexedBlock.indexEntry)
  lastKey : ∀ e, es.getLast? = some e → r.lastKey = e.1
  flag : r.pendingIndexEntry = pending.isSome
  handle : ∀ b, pending = some b → r.pendingHandle = b.1
  idle : pending.isSome → current = []
  nonempty : ∀ b ∈ done.map IndexedBlock.flushed ++ pending.toList, b.2 ≠ []
  stored : ∀ b ∈ done.map IndexedBlock.flushed ++ pending.toList,
    Stored crc r.file b.1 (opt.blockBytes b.2)
  increasing : (done.map IndexedBlock.flushed ++ pending.toList).Pairwise
    fun b c => b.1.offset < c.1.offset
  filters : r.filterBlock = opt.filterPolicy.map fun p =>
    (p, ((((done.map IndexedBlock.flushed ++ pending.toList).map filterInput).foldl
      (FilterBlockBuilder.addBlock p) ⟨[], []⟩).startBlock p r.offset).addKeys (current.map Prod.fst))
  separated : ∀ i x, done[i]? = some x → Separated opt.comparator es done i x

theorem BlockBuilder.addAll_concat (interval : Nat) (es : List (Bytes × Bytes)) (e : Bytes × Bytes) :
    BlockBuilder.addAll interval (es ++ [e]) = (BlockBuilder.addAll interval es).add interval e.1 e.2 := by
  unfold BlockBuilder.addAll
  rw [foldl_append]
  rfl

theorem BlockBuilder.add_buffer_ne_nil (interval : Nat) (b : BlockBuilder) (key value : Bytes) :
    (b.add interval key value).buffer ≠ [] := by
  have hentry : ∀ shared, encodeEntry shared key value ≠ [] := by
    intro shared hnil
    have hlen := congrArg List.length hnil
    unfold encodeEntry at hlen
    have hthree := three_le_entryHeader shared (key.length - shared) value.length
    rw [length_append, length_nil] at hlen
    omega
  unfold BlockBuilder.add
  split_ifs
  · exact append_ne_nil_of_right_ne_nil _ (hentry _)
  · exact append_ne_nil_of_right_ne_nil _ (hentry _)

theorem BlockBuilder.addAll_buffer_eq_nil {interval : Nat} {es : List (Bytes × Bytes)} :
    (BlockBuilder.addAll interval es).buffer = [] ↔ es = [] := by
  constructor
  · intro h
    rcases eq_nil_or_concat es with rfl | ⟨front, e, rfl⟩
    · rfl
    · rw [concat_eq_append, addAll_concat] at h
      exact absurd h (add_buffer_ne_nil _ _ _ _)
  · rintro rfl
    rfl

variable {x : IndexedBlock}

theorem Separated.extend {cmp : Comparator} {es : List (Bytes × Bytes)} {blocks : List IndexedBlock}
    {i : Nat} (h : Separated cmp es blocks i x) (e : Bytes × Bytes) :
    Separated cmp (es ++ [e]) blocks i x := by
  obtain ⟨a, b, ha, hb, hsep⟩ := h
  refine ⟨a, b, ha, ?_, hsep⟩
  rw [getElem?_append_left (List.getElem?_eq_some_iff.mp hb).1]
  exact hb

theorem entriesBefore_append {blocks : List IndexedBlock} {i : Nat} (h : i ≤ blocks.length)
    (rest : List IndexedBlock) : entriesBefore (blocks ++ rest) i = entriesBefore blocks i := by
  unfold entriesBefore
  rw [take_append_of_le_length h]

theorem flatMap_flushed (blocks : List IndexedBlock) :
    (blocks.map IndexedBlock.flushed).flatMap Prod.snd = blocks.flatMap IndexedBlock.entries := by
  rw [flatMap_map]
  rfl

namespace Building

variable {crc : Checksum} {opt : TableBuilderOptions} {es : List (Bytes × Bytes)} {r : TableBuilder}
  {done : List IndexedBlock} {pending : Option (BlockHandle × List (Bytes × Bytes))}
  {current : List (Bytes × Bytes)}

theorem init : Building crc opt [] (TableBuilder.new opt) [] none [] where
  entries := rfl
  offset := rfl
  dataBlock := rfl
  indexBlock := rfl
  lastKey := by rintro e ⟨⟩
  flag := rfl
  handle := by rintro b ⟨⟩
  idle := by rintro ⟨⟩
  nonempty := by rintro b ⟨⟩
  stored := by rintro b ⟨⟩
  increasing := List.Pairwise.nil
  filters := by
    refine congrArg (fun f => opt.filterPolicy.map f) (funext fun p => ?_)
    exact congrArg (Prod.mk p) (FilterBlockBuilder.addKeys_nil _).symm
  separated := by rintro i x ⟨⟩

variable {b : BlockHandle × List (Bytes × Bytes)}

theorem offset_lt (h : Building crc opt es r done pending current)
    (hb : b ∈ done.map IndexedBlock.flushed ++ pending.toList) : b.1.offset < r.offset := by
  have hfits := (h.stored b hb).fits.2
  have htrailer : kBlockTrailerSize = 5 := rfl
  rw [h.offset]
  omega

theorem flush (h : Building crc opt es r done pending current) :
    ∃ pending', Building crc opt es (r.flush crc) done pending' [] := by
  unfold TableBuilder.flush
  by_cases hempty : current = []
  · subst hempty
    have hbuffer : r.dataBlock.buffer.isEmpty = true := by
      rw [h.dataBlock]
      rfl
    rw [if_pos hbuffer]
    exact ⟨pending, h⟩
  · have hnone : pending = none := by
      by_contra hne
      exact hempty (h.idle (isSome_iff_ne_none.mpr hne))
    subst hnone
    have hbuffer : r.dataBlock.buffer.isEmpty = false := by
      rw [isEmpty_eq_false_iff, h.dataBlock]
      exact fun hnil => hempty (BlockBuilder.addAll_buffer_eq_nil.mp hnil)
    rw [hbuffer, if_neg Bool.false_ne_true]
    have hblocks : done.map IndexedBlock.flushed ++
        (none : Option (BlockHandle × List (Bytes × Bytes))).toList =
        done.map IndexedBlock.flushed := append_nil _
    have hentries := h.entries
    have hnonempty := h.nonempty
    have hstored := h.stored
    have hincreasing := h.increasing
    have hfilter := h.filters
    have hoffset := fun b (hb : b ∈ done.map IndexedBlock.flushed) => h.offset_lt (hblocks.symm ▸ hb)
    rw [hblocks] at hentries hnonempty hstored hincreasing hfilter
    have hfinish : r.dataBlock.finish = opt.blockBytes current := by
      rw [h.dataBlock]
      rfl
    have hlength : r.offset + r.dataBlock.finish.length + kBlockTrailerSize =
        (r.file ++ rawBlock crc r.dataBlock.finish).length := by
      rw [length_append, length_rawBlock, h.offset, Nat.add_assoc]
    refine ⟨some (⟨r.offset, r.dataBlock.finish.length⟩, current), ?_⟩
    exact {
      entries := by
        rw [toList_some, flatMap_append, flatMap_singleton, append_nil]
        exact hentries
      offset := hlength
      dataBlock := rfl
      indexBlock := h.indexBlock
      lastKey := h.lastKey
      flag := rfl
      handle := by
        rintro b hb
        rw [← Option.some.inj hb]
        rfl
      idle := fun _ => rfl
      nonempty := by
        intro b hb
        obtain hb | hb := mem_append.mp hb
        · exact hnonempty b hb
        · rw [mem_singleton.mp hb]
          exact hempty
      stored := by
        intro b hb
        obtain hb | hb := mem_append.mp hb
        · exact (hstored b hb).append _
        · rw [mem_singleton.mp hb]
          dsimp only
          rw [h.offset, ← hfinish]
          exact stored_last crc r.file r.dataBlock.finish
      increasing := by
        rw [toList_some, pairwise_append]
        refine ⟨hincreasing, pairwise_singleton _ _, ?_⟩
        intro b hb c hc
        rw [mem_singleton.mp hc]
        exact hoffset b hb
      filters := by
        show (r.filterBlock.map fun (p, b) => (p, b.startBlock p
          (r.offset + r.dataBlock.finish.length + kBlockTrailerSize))) = _
        rw [hfilter, Option.map_map, toList_some, map_append, map_singleton]
        congr 1
        funext p
        rw [foldl_append, map_nil, FilterBlockBuilder.addKeys_nil]
        rfl
      separated := h.separated }

theorem pending_spec (h : Building crc opt es r done (some b) current) (separator : Bytes) :
    ∃ (a : Bytes × Bytes) (x : IndexedBlock), x = ⟨separator, b.1, b.2⟩ ∧
      b.2.getLast? = some a ∧ r.lastKey = a.1 ∧ es = done.flatMap IndexedBlock.entries ++ b.2 ∧
      (r.addIndexEntry separator).indexBlock =
        BlockBuilder.addAll 1 ((done ++ [x]).map IndexedBlock.indexEntry) ∧
      ∀ i y, (done ++ [x])[i]? = some y →
        Separated opt.comparator es (done ++ [x]) i y ∨ (i = done.length ∧ y = x) := by
  have hcurrent : current = [] := h.idle rfl
  have hes : es = done.flatMap IndexedBlock.entries ++ b.2 := by
    rw [h.entries, hcurrent, append_nil, toList_some, flatMap_append,
      flatMap_singleton, flatMap_flushed]
  have hb : b.2 ≠ [] := h.nonempty b (by simp)
  obtain ⟨a, ha⟩ := ne_none_iff_exists'.mp (mt getLast?_eq_none_iff.mp hb)
  refine ⟨a, _, rfl, ha, h.lastKey a ?_, hes, ?_, ?_⟩
  · rw [hes, getLast?_append, ha]
    rfl
  · rw [map_append, map_singleton, BlockBuilder.addAll_concat, ← h.indexBlock]
    show r.indexBlock.add 1 _ r.pendingHandle.encodeTo = _
    rw [h.handle b rfl]
    rfl
  · intro i y hy
    by_cases hi : i < done.length
    · rw [getElem?_append_left hi] at hy
      obtain ⟨a, b', ha, hb', hsep⟩ := h.separated i y hy
      refine .inl ⟨a, b', ha, ?_, hsep⟩
      rw [entriesBefore_append hi]
      exact hb'
    · grind

theorem addIndexEntry (h : Building crc opt es r done (some b) current) (key : Bytes × Bytes) :
    ∃ x : IndexedBlock, x.flushed = b ∧
      (r.addIndexEntry (opt.comparator.findShortestSeparator r.lastKey key.1)).indexBlock =
        BlockBuilder.addAll 1 ((done ++ [x]).map IndexedBlock.indexEntry) ∧
      ∀ i y, (done ++ [x])[i]? = some y →
        Separated opt.comparator (es ++ [key]) (done ++ [x]) i y := by
  obtain ⟨a, x, rfl, ha, hlast, hes, hindex, hseparated⟩ :=
    h.pending_spec (opt.comparator.findShortestSeparator r.lastKey key.1)
  refine ⟨_, rfl, hindex, fun i y hy => ?_⟩
  obtain hsep | ⟨rfl, rfl⟩ := hseparated i y hy
  · exact hsep.extend key
  · refine ⟨a, key, ha, ?_, by rw [hlast]⟩
    unfold entriesBefore
    rw [take_of_length_le (by rw [length_append]; exact le_refl _), flatMap_append,
      flatMap_singleton, ← hes, getElem?_append_right (le_refl _), Nat.sub_self]
    rfl

theorem addEntry (h : Building crc opt es r done pending current) {done' : List IndexedBlock}
    {indexBlock : BlockBuilder} (hblocks : done'.map IndexedBlock.flushed =
      done.map IndexedBlock.flushed ++ pending.toList)
    (hindex : indexBlock = BlockBuilder.addAll 1 (done'.map IndexedBlock.indexEntry))
    {e : Bytes × Bytes}
    (hseparated : ∀ i x, done'[i]? = some x → Separated opt.comparator (es ++ [e]) done' i x)
    (lastKey : Bytes) :
    Building crc opt (es ++ [e])
      ({ r with
          indexBlock := indexBlock
          lastKey := lastKey
          pendingIndexEntry := false : TableBuilder }.addEntry opt e.1 e.2)
      done' none (current ++ [e]) := by
  have hnone : done'.map IndexedBlock.flushed ++
      (none : Option (BlockHandle × List (Bytes × Bytes))).toList =
      done.map IndexedBlock.flushed ++ pending.toList := by
    rw [← hblocks]
    exact append_nil _
  exact {
    entries := by
      rw [hnone, ← append_assoc, ← h.entries]
    offset := h.offset
    dataBlock := by
      rw [BlockBuilder.addAll_concat, ← h.dataBlock]
      rfl
    indexBlock := hindex
    lastKey := by
      intro x hx
      rw [getLast?_concat] at hx
      rw [← Option.some.inj hx]
      rfl
    flag := rfl
    handle := by rintro b ⟨⟩
    idle := by rintro ⟨⟩
    nonempty := by rw [hnone]; exact h.nonempty
    stored := by rw [hnone]; exact h.stored
    increasing := by rw [hnone]; exact h.increasing
    filters := by
      show r.filterBlock.map _ = _
      rw [hnone, h.filters, Option.map_map]
      congr 1
      funext p
      show (p, (FilterBlockBuilder.addKeys _ (current.map Prod.fst)).addKeys [e.1]) = _
      have hkeys : (current ++ [e]).map Prod.fst = current.map Prod.fst ++ [e.1] := map_append
      rw [FilterBlockBuilder.addKeys_addKeys, hkeys]
      rfl
    separated := hseparated }

theorem add (h : Building crc opt es r done pending current) (e : Bytes × Bytes) :
    ∃ done' pending' current',
      Building crc opt (es ++ [e]) (r.add crc opt e.1 e.2) done' pending' current' := by
  obtain ⟨done', hadded⟩ : ∃ done', Building crc opt (es ++ [e])
      ((r.addPendingIndexEntry fun lastKey =>
        opt.comparator.findShortestSeparator lastKey e.1).addEntry opt e.1 e.2)
      done' none (current ++ [e]) := by
    unfold TableBuilder.addPendingIndexEntry
    cases pending with
    | none =>
      have hflag : r.pendingIndexEntry = false := h.flag
      have hsame : r = { r with pendingIndexEntry := false } := by rw [← hflag]
      rw [hflag, if_neg Bool.false_ne_true, hsame]
      exact ⟨done, h.addEntry (append_nil _).symm h.indexBlock
        (fun i x hx => (h.separated i x hx).extend e) r.lastKey⟩
    | some b =>
      have hflag : r.pendingIndexEntry = true := h.flag
      obtain ⟨x, rfl, hindex, hseparated⟩ := h.addIndexEntry e
      rw [hflag, if_pos rfl]
      refine ⟨done ++ [x], h.addEntry ?_ hindex hseparated _⟩
      rw [map_append]
      rfl
  unfold TableBuilder.add
  dsimp only
  split_ifs
  · obtain ⟨pending', hflushed⟩ := hadded.flush
    exact ⟨done', pending', [], hflushed⟩
  · exact ⟨done', none, current ++ [e], hadded⟩

theorem addAll (crc : Checksum) (opt : TableBuilderOptions) (es : List (Bytes × Bytes)) :
    ∃ done pending current,
      Building crc opt es (TableBuilder.addAll crc opt es) done pending current := by
  induction es using List.reverseRecOn with
  | nil => exact ⟨[], none, [], init⟩
  | append_singleton es e ih =>
    obtain ⟨done, pending, current, h⟩ := ih
    unfold TableBuilder.addAll
    rw [foldl_append]
    exact h.add e

end Building

/-! ## Built files -/

def MetaEntries (crc : Checksum) (opt : TableBuilderOptions) (file : Bytes)
    (blocks : List (BlockHandle × List (Bytes × Bytes))) (metaEntries : List (Bytes × Bytes)) : Prop :=
  (opt.filterPolicy = none ∧ metaEntries = []) ∨
    ∃ p handle dataEnd, opt.filterPolicy = some p ∧ metaEntries = [(p.metaKey, handle.encodeTo)] ∧
      Stored crc file handle (filterBlockBytes (filterBlock p (blocks.map filterInput) dataEnd))

/-- Where everything is in a table file. -/
structure TableLayout (crc : Checksum) (opt : TableBuilderOptions) (es : List (Bytes × Bytes))
    (file : Bytes) (blocks : List IndexedBlock) (metaEntries : List (Bytes × Bytes))
    (footer : Footer) : Prop where
  entries : es = blocks.flatMap IndexedBlock.entries
  nonempty : ∀ x ∈ blocks, x.entries ≠ []
  data : ∀ x ∈ blocks, Stored crc file x.handle (opt.blockBytes x.entries)
  increasing : blocks.Pairwise fun x y => x.handle.offset < y.handle.offset
  separated : ∀ i x, blocks[i]? = some x → Separated opt.comparator es blocks i x ∨
    (i + 1 = blocks.length ∧ ∃ a, x.entries.getLast? = some a ∧
      x.separator = opt.comparator.findShortSuccessor a.1)
  filter : MetaEntries crc opt file (blocks.map IndexedBlock.flushed) metaEntries
  metaindex : Stored crc file footer.metaindexHandle (opt.blockBytes metaEntries)
  index : Stored crc file footer.indexHandle
    (BlockBuilder.addAll 1 (blocks.map IndexedBlock.indexEntry)).finish
  footer_last : ∃ front, file = front ++ footer.encodeTo

theorem MetaEntries.append {crc : Checksum} {opt : TableBuilderOptions} {file : Bytes}
    {blocks : List (BlockHandle × List (Bytes × Bytes))} {metaEntries : List (Bytes × Bytes)}
    (h : MetaEntries crc opt file blocks metaEntries) (rest : Bytes) :
    MetaEntries crc opt (file ++ rest) blocks metaEntries := by
  refine h.imp id ?_
  rintro ⟨p, handle, dataEnd, hp, hentries, hstored⟩
  exact ⟨p, handle, dataEnd, hp, hentries, hstored.append rest⟩

section AddPendingIndexEntry

variable (r : TableBuilder) (separator : Bytes → Bytes)

theorem addPendingIndexEntry_file : (r.addPendingIndexEntry separator).file = r.file := by
  unfold TableBuilder.addPendingIndexEntry
  split_ifs <;> rfl

theorem addPendingIndexEntry_offset : (r.addPendingIndexEntry separator).offset = r.offset := by
  unfold TableBuilder.addPendingIndexEntry
  split_ifs <;> rfl

theorem addPendingIndexEntry_indexBlock (file : Bytes) (offset : Nat) :
    ({ r with file := file, offset := offset : TableBuilder }.addPendingIndexEntry separator).indexBlock =
      (r.addPendingIndexEntry separator).indexBlock := by
  unfold TableBuilder.addPendingIndexEntry
  dsimp only
  split_ifs <;> rfl

end AddPendingIndexEntry

theorem finish_eq {crc : Checksum} {opt : TableBuilderOptions} {r r' : TableBuilder} {before after : Bytes}
    {metaEntries : List (Bytes × Bytes)} {index : Bytes} (hflush : r.flush crc = r')
    (hfilter : r'.writeFilter crc =
      (metaEntries, { r' with file := before, offset := before.length }))
    (hafter : after = before ++ rawBlock crc (opt.blockBytes metaEntries))
    (hindex : index =
      (r'.addPendingIndexEntry opt.comparator.findShortSuccessor).indexBlock.finish) :
    (r.finish crc opt).file = after ++ rawBlock crc index ++
        Footer.encodeTo ⟨⟨before.length, (opt.blockBytes metaEntries).length⟩,
          ⟨after.length, index.length⟩⟩ ∧
      (r.finish crc opt).offset = (r.finish crc opt).file.length := by
  have hlength : before.length + (opt.blockBytes metaEntries).length + kBlockTrailerSize =
      after.length := by
    rw [hafter, length_append, length_rawBlock, Nat.add_assoc]
  unfold TableBuilderOptions.blockBytes at hlength hafter ⊢
  unfold TableBuilder.finish
  dsimp only
  rw [hflush, hfilter]
  unfold TableBuilder.writeRawBlock
  dsimp only
  rw [addPendingIndexEntry_file, addPendingIndexEntry_offset, addPendingIndexEntry_indexBlock,
    ← hindex, hlength, ← hafter]
  refine ⟨rfl, ?_⟩
  rw [length_append, length_append, length_rawBlock, Nat.add_assoc after.length]

namespace Building

variable {crc : Checksum} {opt : TableBuilderOptions} {es : List (Bytes × Bytes)} {r : TableBuilder}
  {done : List IndexedBlock} {pending : Option (BlockHandle × List (Bytes × Bytes))}

theorem writeFilter (h : Building crc opt es r done pending []) :
    ∃ rest, (r.writeFilter crc).2 =
        { r with file := r.file ++ rest, offset := (r.file ++ rest).length } ∧
      MetaEntries crc opt (r.file ++ rest) (done.map IndexedBlock.flushed ++ pending.toList)
        (r.writeFilter crc).1 := by
  have hfilter := h.filters
  cases hp : opt.filterPolicy with
  | none =>
    rw [hp] at hfilter
    have hnone : r.writeFilter crc = ([], r) := by
      unfold TableBuilder.writeFilter
      rw [hfilter]
      rfl
    refine ⟨[], ?_, .inl ⟨hp, by rw [hnone]⟩⟩
    rw [hnone, append_nil, ← h.offset]
  | some p =>
    rw [hp, map_some, map_nil, FilterBlockBuilder.addKeys_nil] at hfilter
    have hsome : r.writeFilter crc = ([(p.metaKey, (r.writeRawBlock crc (filterBlockBytes (filterBlock p
        ((done.map IndexedBlock.flushed ++ pending.toList).map filterInput) r.offset))).1.encodeTo)],
        (r.writeRawBlock crc (filterBlockBytes (filterBlock p
        ((done.map IndexedBlock.flushed ++ pending.toList).map filterInput) r.offset))).2) := by
      unfold TableBuilder.writeFilter
      rw [hfilter]
      rfl
    rw [hsome]
    generalize hcontents : filterBlockBytes (filterBlock p
      ((done.map IndexedBlock.flushed ++ pending.toList).map filterInput) r.offset) = contents
    refine ⟨rawBlock crc contents, ?_, .inr ⟨p, _, r.offset, hp, rfl, ?_⟩⟩
    · unfold TableBuilder.writeRawBlock
      dsimp only
      rw [length_append, length_rawBlock, h.offset, Nat.add_assoc]
    · rw [hcontents]
      unfold TableBuilder.writeRawBlock
      rw [h.offset]
      exact stored_last crc r.file contents

theorem done_eq_nil (h : Building crc opt es r done none []) : done = [] := by
  rcases eq_nil_or_concat done with rfl | ⟨front, x, rfl⟩
  · rfl
  · rw [concat_eq_append] at h
    have hx : (front ++ [x])[front.length]? = some x := by
      rw [getElem?_append_right (le_refl _), Nat.sub_self]
      rfl
    obtain ⟨a, b, -, hb, -⟩ := h.separated front.length x hx
    have hlen : entriesBefore (front ++ [x]) (front.length + 1) = es.length := by
      have hes := h.entries
      rw [toList_none, append_nil, append_nil, flatMap_flushed] at hes
      unfold entriesBefore
      rw [take_of_length_le (by rw [length_append]; exact le_refl _), hes]
    rw [hlen, getElem?_eq_none (le_refl _)] at hb
    cases hb

theorem lastIndexEntry (h : Building crc opt es r done pending []) :
    ∃ blocks : List IndexedBlock,
      blocks.map IndexedBlock.flushed = done.map IndexedBlock.flushed ++ pending.toList ∧
      (r.addPendingIndexEntry opt.comparator.findShortSuccessor).indexBlock =
        BlockBuilder.addAll 1 (blocks.map IndexedBlock.indexEntry) ∧
      ∀ i x, blocks[i]? = some x → Separated opt.comparator es blocks i x ∨
        (i + 1 = blocks.length ∧ ∃ a, x.entries.getLast? = some a ∧
          x.separator = opt.comparator.findShortSuccessor a.1) := by
  unfold TableBuilder.addPendingIndexEntry
  cases pending with
  | none =>
    simp [h.flag, h.done_eq_nil, h.indexBlock]
  | some b =>
    have hflag : r.pendingIndexEntry = true := h.flag
    obtain ⟨a, x, rfl, ha, hlast, -, hindex, hseparated⟩ :=
      h.pending_spec (opt.comparator.findShortSuccessor r.lastKey)
    rw [hflag, if_pos rfl]
    refine ⟨_, map_append, hindex, fun i x hx => (hseparated i x hx).imp id ?_⟩
    rintro ⟨rfl, rfl⟩
    exact ⟨by rw [length_append]; rfl, a, ha, by rw [hlast]⟩

theorem finish {current : List (Bytes × Bytes)} (h : Building crc opt es r done pending current) :
    (r.finish crc opt).offset = (r.finish crc opt).file.length ∧
      ∃ blocks metaEntries footer,
        TableLayout crc opt es (r.finish crc opt).file blocks metaEntries footer ∧
        ∀ x ∈ blocks, x.handle.offset ≤ footer.metaindexHandle.offset := by
  obtain ⟨pending, h⟩ := h.flush
  obtain ⟨rest, hfilter, hmeta⟩ := h.writeFilter
  obtain ⟨blocks, hblocks, hindex, hseparated⟩ := h.lastIndexEntry
  rw [← hblocks] at hmeta
  have hpair : (r.flush crc).writeFilter crc = (((r.flush crc).writeFilter crc).1,
      { r.flush crc with
        file := (r.flush crc).file ++ rest, offset := ((r.flush crc).file ++ rest).length }) :=
    Prod.ext rfl hfilter
  obtain ⟨hfile, hoffset⟩ := @finish_eq crc opt r _ _ _ _ _ rfl hpair rfl rfl
  rw [hindex] at hfile
  generalize ((r.flush crc).writeFilter crc).1 = metaEntries at hmeta hfile
  have hdata : ∀ x ∈ blocks, Stored crc ((r.flush crc).file ++ rest) x.handle
      (opt.blockBytes x.entries) :=
    fun x hx => (h.stored x.flushed (hblocks ▸ List.mem_map_of_mem hx)).append rest
  generalize (r.flush crc).file ++ rest = before at hmeta hfile hdata
  have hbefore : ∀ {handle contents}, Stored crc before handle contents →
      Stored crc (before ++ rawBlock crc (opt.blockBytes metaEntries)) handle contents :=
    fun hs => hs.append _
  have hmeta := hmeta.append (rawBlock crc (opt.blockBytes metaEntries))
  have hmetaindex := stored_last crc before (opt.blockBytes metaEntries)
  generalize rawBlock crc (opt.blockBytes metaEntries) = raw at hmetaindex hfile hmeta hbefore
  generalize before ++ raw = after at hmetaindex hfile hmeta hbefore
  have hindexBlock := stored_last crc after
    (BlockBuilder.addAll 1 (blocks.map IndexedBlock.indexEntry)).finish
  refine ⟨hoffset, blocks, metaEntries, ⟨⟨before.length, (opt.blockBytes metaEntries).length⟩,
    ⟨after.length, (BlockBuilder.addAll 1 (blocks.map IndexedBlock.indexEntry)).finish.length⟩⟩, ?_,
    fun x hx => by have := (hdata x hx).fits; dsimp only; omega⟩
  rw [hfile]
  exact {
    entries := by rw [h.entries, append_nil, ← hblocks, flatMap_flushed]
    nonempty := fun x hx => h.nonempty x.flushed (hblocks ▸ List.mem_map_of_mem hx)
    data := fun x hx => ((hbefore (hdata x hx)).append _).append _
    increasing := by
      have hincreasing := h.increasing
      rw [← hblocks, pairwise_map] at hincreasing
      exact hincreasing
    separated := hseparated
    filter := (hmeta.append _).append _
    metaindex := (hmetaindex.append _).append _
    index := hindexBlock.append _
    footer_last := ⟨_, rfl⟩ }

end Building

section

variable (crc : Checksum) (opt : TableBuilderOptions) (es : List (Bytes × Bytes))
include crc opt es

/-- **Built files** have a layout in which the data blocks come first, and their size is
    `FileSize()`. -/
theorem table_layout_data_first :
    (TableBuilder.build crc opt es).offset = (TableBuilder.build crc opt es).file.length ∧
      ∃ blocks metaEntries footer,
        TableLayout crc opt es (TableBuilder.build crc opt es).file blocks metaEntries footer ∧
        ∀ x ∈ blocks, x.handle.offset ≤ footer.metaindexHandle.offset := by
  obtain ⟨done, pending, current, h⟩ := Building.addAll crc opt es
  exact h.finish

theorem table_layout :
    (TableBuilder.build crc opt es).offset = (TableBuilder.build crc opt es).file.length ∧
      ∃ blocks metaEntries footer,
        TableLayout crc opt es (TableBuilder.build crc opt es).file blocks metaEntries footer := by
  grind [table_layout_data_first]

end

/-! ## Separators -/

def IndexedBlock.part (x : IndexedBlock) : (Bytes × Bytes) × List (Bytes × Bytes) :=
  (x.indexEntry, x.entries)

namespace TableLayout

variable {crc : Checksum} {opt : TableBuilderOptions} {es : List (Bytes × Bytes)} {file : Bytes}
  {blocks : List IndexedBlock} {metaEntries : List (Bytes × Bytes)} {footer : Footer} {o : TableOrder}

theorem flatMap_part (blocks : List IndexedBlock) :
    (blocks.map IndexedBlock.part).flatMap Prod.snd = blocks.flatMap IndexedBlock.entries := by
  rw [flatMap_map]
  rfl

section

variable (L : TableLayout crc opt es file blocks metaEntries footer)
include L

theorem separator_cases (hsorted : SortedList.Strict (fun e => o.rank e.1) es) {i : Nat}
    (hx : blocks[i]? = some x) :
    ∃ a ∈ x.entries, (∀ e ∈ x.entries, o.rank e.1 ≤ o.rank a.1) ∧
      ((∃ b : Bytes × Bytes, x.separator = opt.comparator.findShortestSeparator a.1 b.1 ∧
          o.rank a.1 < o.rank b.1 ∧
          ∀ y ∈ blocks.drop (i + 1), ∀ e ∈ y.entries, o.rank b.1 ≤ o.rank e.1) ∨
        (blocks.drop (i + 1) = [] ∧ x.separator = opt.comparator.findShortSuccessor a.1)) := by
  have hi : i < blocks.length := (List.getElem?_eq_some_iff.mp hx).1
  have hmem : x ∈ blocks.take (i + 1) := by
    refine mem_of_getElem? (i := i) ?_
    rw [getElem?_take_of_lt (Nat.lt_succ_self i)]
    exact hx
  have hes : es = (blocks.take (i + 1)).flatMap IndexedBlock.entries ++
      (blocks.drop (i + 1)).flatMap IndexedBlock.entries := by
    rw [← flatMap_append, List.take_append_drop]
    exact L.entries
  rw [hes] at hsorted
  obtain ⟨hpre, hafter, hcross⟩ := pairwise_append.mp hsorted
  have hpost : SortedList.Strict (fun e => o.rank e.1)
      ((blocks.drop (i + 1)).flatMap IndexedBlock.entries) := hafter
  have hblock : SortedList.Strict (fun e => o.rank e.1) x.entries :=
    (pairwise_flatMap.mp hpre).1 x hmem
  obtain ⟨a, b, ha, hb, hsep⟩ | ⟨hlast, a, ha, hsep⟩ := L.separated i x hx
  · have hax : a ∈ x.entries := mem_of_getLast? ha
    refine ⟨a, hax, hblock.le_getLast ha, .inl ⟨b, hsep, ?_, ?_⟩⟩
    all_goals
      rw [hes] at hb
      unfold entriesBefore at hb
      rw [getElem?_append_right (le_refl _), Nat.sub_self] at hb
    · exact hcross a (mem_flatMap.mpr ⟨x, hmem, hax⟩) b (mem_of_getElem? hb)
    · intro y hy e he
      exact hpost.head_le (head?_eq_getElem?.trans hb) e (mem_flatMap.mpr ⟨y, hy, he⟩)
  · refine ⟨a, mem_of_getLast? ha, hblock.le_getLast ha, .inr ⟨?_, hsep⟩⟩
    exact drop_of_length_le hlast.ge

theorem separator_bounds (hcmp : opt.comparator = o.comparator) (hwf : ∀ e ∈ es, o.WellFormed e.1)
    (hsorted : SortedList.Strict (fun e => o.rank e.1) es) {i : Nat} (hx : blocks[i]? = some x) :
    (∀ e ∈ x.entries, o.rank e.1 ≤ o.rank x.separator) ∧
      ∀ y ∈ blocks.drop (i + 1), ∀ e ∈ y.entries, o.rank x.separator < o.rank e.1 := by
  obtain ⟨a, hax, hle, ⟨b, hsep, hlt, hnext⟩ | ⟨hlast, hsep⟩⟩ := L.separator_cases hsorted hx
  all_goals
    have haes : a ∈ es := by
      rw [L.entries]
      exact mem_flatMap.mpr ⟨x, mem_of_getElem? hx, hax⟩
    rw [hsep, hcmp]
  · obtain ⟨-, hge, hsep⟩ := o.separator_spec (hwf a haes) hlt
    exact ⟨fun e he => (hle e he).trans hge, fun y hy e he => hsep.trans_le (hnext y hy e he)⟩
  · have hge := (o.successor_spec (hwf a haes)).2
    refine ⟨fun e he => (hle e he).trans hge, ?_⟩
    intro y hy
    rw [hlast] at hy
    exact absurd hy not_mem_nil

end

theorem mem_drop_of_lt {i j : Nat} (hij : i < j) (hj : j < blocks.length) :
    blocks[j] ∈ blocks.drop (i + 1) := by
  refine mem_of_getElem? (i := j - (i + 1)) ?_
  rw [getElem?_drop, show i + 1 + (j - (i + 1)) = j by omega]
  exact getElem?_eq_getElem hj

section

variable (L : TableLayout crc opt es file blocks metaEntries footer)
  (hcmp : opt.comparator = o.comparator) (hwf : ∀ e ∈ es, o.WellFormed e.1)
  (hsorted : SortedList.Strict (fun e => o.rank e.1) es)
include L hcmp hwf hsorted

theorem separator_lt {i j : Nat} (hij : i < j)
    (hj : j < blocks.length) : ∀ e ∈ blocks[j].entries, o.rank blocks[i].separator < o.rank e.1 :=
  (L.separator_bounds hcmp hwf hsorted (getElem?_eq_getElem (by omega))).2 _
    (mem_drop_of_lt hij hj)

theorem le_separator (hx : x ∈ blocks) :
    ∀ e ∈ x.entries, o.rank e.1 ≤ o.rank x.separator := by
  obtain ⟨i, hi, rfl⟩ := getElem_of_mem hx
  exact (L.separator_bounds hcmp hwf hsorted (getElem?_eq_getElem hi)).1

theorem separators_strict :
    SortedList.Strict (fun x => o.rank x.1) ((blocks.map IndexedBlock.part).map Prod.fst) := by
  rw [List.map_map]
  refine pairwise_map.mpr (pairwise_iff_getElem.mpr ?_)
  intro i j hi hj hij
  obtain ⟨e, he⟩ := exists_mem_of_ne_nil _ (L.nonempty _ (getElem_mem hj))
  exact (L.separator_lt hcmp hwf hsorted hij hj e he).trans_le
    (L.le_separator hcmp hwf hsorted (getElem_mem hj) e he)

/-- **Index entries** are in order with the blocks. -/
theorem ordered :
    TwoLevelIterator.Ordered (fun x => o.rank x.1) (fun e => o.rank e.1)
      (blocks.map IndexedBlock.part) := by
  refine ⟨(L.separators_strict hcmp hwf hsorted).imp fun hlt => hlt.le, ?_, ?_, ?_⟩
  · rw [flatMap_part, ← L.entries]
    exact hsorted
  · intro x hx
    obtain ⟨y, hy, rfl⟩ := List.mem_map.mp hx
    exact L.le_separator hcmp hwf hsorted hy
  · refine pairwise_map.mpr (pairwise_iff_getElem.mpr ?_)
    intro i j hi hj hij
    exact L.separator_lt hcmp hwf hsorted hij hj

end

end TableLayout

end LevelDB
