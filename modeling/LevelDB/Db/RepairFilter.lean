/-
  Filters after a repair (`db/repair.cc`, `SanitizeOptions` there and in `db/db_impl.cc`).

  `DBImpl` replaces the policy of its options by an `InternalFilterPolicy`, so that filters are
  built and probed with user keys. `Repairer` constructs such a policy too, but leaves the user's
  own policy in its options: the filters of the tables it writes are built from internal keys, and
  stored under the same name.
-/
import LevelDB.Db.Repair
import LevelDB.Table.FilterBlock

namespace LevelDB

open List Option SortedList

variable {K V : Type} [LinearOrder K]

def KeyCodec.internalKey (keys : KeyCodec K) (k : InternalKey K) : Bytes :=
  keys.toBytes k.userKey ++ encodeFixed64 k.tag

omit [LinearOrder K] in
theorem extractUserKey_internalKey (keys : KeyCodec K) (k : InternalKey K) :
    extractUserKey (keys.internalKey k) = keys.toBytes k.userKey := by
  unfold extractUserKey KeyCodec.internalKey
  rw [length_append, length_encodeFixed64, Nat.add_sub_cancel, take_left]

/-! ## Table files with filter blocks -/

/-- A table file: the data blocks, and the filter block with the name of its policy. -/
structure TableFile (K V : Type) [LinearOrder K] where
  table : Table K V
  filters : Option (String × List Bytes)

/-- The data blocks of a table as `TableBuilder` passes them to the filter block. -/
def Table.blockKeys (keys : KeyCodec K) (t : Table K V) : List (Nat × List Bytes) :=
  t.blocks.map fun b => (b.offset, b.entries.map fun e => keys.internalKey e.key)

namespace TableFile

variable (keys : KeyCodec K) (policy : Option FilterPolicy)

/-- `ReadMeta` and `FilterBlockReader::KeyMayMatch`: a filter block is used if it has the name of
    the policy that the table is opened with. -/
def keyMayMatch (f : TableFile K V) (blockOffset : Nat) (k : InternalKey K) : Bool :=
  match policy, f.filters with
  | some p, some (name, filters) =>
    if name = p.name then filterKeyMayMatch p filters blockOffset (keys.internalKey k) else true
  | _, _ => true

def internalGet (f : TableFile K V) (k : InternalKey K) : Option (Entry K V) :=
  match f.table.indexSeek k with
  | none => none
  | some b => if f.keyMayMatch keys policy b.offset k then seek Entry.key b.entries k else none

/-- What a lookup at `(k, s)` learns about the key. -/
def probe (f : TableFile K V) (k : K) (s : Nat) : Option (Entry K V) :=
  (f.internalGet keys policy (lookupKey k s)).filter fun e => decide (e.userKey = k)

def cacheGet (files : Nat → TableFile K V) : TableCacheGet K V :=
  fun number k => .ok ((files number).internalGet keys policy k)

variable {keys policy} {f : TableFile K V} {p : FilterPolicy}

theorem keyMayMatch_none (offset : Nat) (k : InternalKey K) :
    f.keyMayMatch keys none offset k = true := rfl

theorem keyMayMatch_congr {offset : Nat} {k k' : InternalKey K} (h : k.userKey = k'.userKey) :
    f.keyMayMatch keys (some (internalFilterPolicy p)) offset k =
      f.keyMayMatch keys (some (internalFilterPolicy p)) offset k' := by
  have hkey : ∀ filter, (internalFilterPolicy p).keyMayMatch (keys.internalKey k) filter =
      (internalFilterPolicy p).keyMayMatch (keys.internalKey k') filter := by
    intro filter
    show p.keyMayMatch (extractUserKey _) filter = p.keyMayMatch (extractUserKey _) filter
    rw [extractUserKey_internalKey, extractUserKey_internalKey, h]
  unfold keyMayMatch
  cases f.filters with
  | none => rfl
  | some o => simp only [filterKeyMayMatch, hkey]

def Passes (keys : KeyCodec K) (p : FilterPolicy) (f : TableFile K V) : Prop :=
  ∀ b ∈ f.table.blocks, ∀ e ∈ b.entries,
    f.keyMayMatch keys (some (internalFilterPolicy p)) b.offset e.key = true

theorem probe_eq_of_passes (h : f.Passes keys p) (k : K) (s : Nat) :
    f.probe keys (some (internalFilterPolicy p)) k s = f.probe keys none k s := by
  unfold probe internalGet
  cases hb : f.table.indexSeek (lookupKey k s) with
  | none => rfl
  | some b =>
    have hmem : b ∈ f.table.blocks := mem_of_find?_eq_some hb
    dsimp only
    rw [keyMayMatch_none, if_pos rfl]
    split_ifs with hmatch
    · rfl
    · -- the filter rejects, so the block has no entry of the key
      rw [filter_none, eq_comm, filter_eq_none_iff]
      intro e he hek
      have hpass := h b hmem e (mem_of_seek_eq_some he)
      have hkey : e.key.userKey = (lookupKey k s).userKey := of_decide_eq_true hek
      rw [keyMayMatch_congr hkey] at hpass
      exact hmatch hpass

theorem indexSeek_of_mem {t : Table K V} (hone : t.OneEntryPerSequence) {b : DataBlock K V}
    (hb : b ∈ t.blocks) {e : Entry K V} (he : e ∈ b.entries) :
    t.indexSeek (lookupKey e.userKey e.sequence) = some b := by
  have hle : lookupKey e.userKey e.sequence ≤ e.key :=
    Entry.lookupKey_le_of_visible (t.wellFormed b hb e he) rfl (le_refl _)
  obtain ⟨pre, post, hsplit⟩ := append_of_mem hb
  unfold Table.indexSeek
  rw [find?_eq_some_iff_append]
  refine ⟨by simpa using hle.trans (t.le_separator b hb e he), pre, post, hsplit, ?_⟩
  intro c hc
  have hcm : c ∈ t.blocks := by rw [hsplit]; exact mem_append_left _ hc
  have hlt := t.separator_lt
  have huser := t.separator_user
  rw [hsplit] at hlt huser
  have hlt := (pairwise_append.mp hlt).2.2 c hc b mem_cons_self e he
  have huser := (pairwise_append.mp huser).2.2 c hc b mem_cons_self
  rw [Bool.not_eq_true', decide_eq_false_iff_not]
  intro hsep
  obtain ⟨x, hx, hxs⟩ | huser := huser
  · -- an entry between the lookup key and `e` would have the sequence number of `e`
    rw [← hxs] at hsep hlt
    have hge : (lookupKey e.userKey e.sequence).userKey ≤ x.userKey :=
      InternalKey.userKey_mono hsep
    have hxk : x.userKey = e.userKey := le_antisymm (InternalKey.userKey_mono hlt.le) hge
    have hxle := Entry.visible_of_lookupKey_le (t.wellFormed c hcm x hx) hxk hsep
    have hxge := Entry.sequence_le_of_tag_le (Entry.tag_le_of_key_le hxk.symm hlt.le)
    have hxe : x = e := hone x (mem_flatMap.mpr ⟨c, hcm, hx⟩) e
      (mem_flatMap.mpr ⟨b, hb, he⟩) (le_antisymm hxle hxge)
    rw [hxe] at hlt
    exact lt_irrefl _ hlt
  · exact absurd (InternalKey.userKey_mono hsep) (not_le.mpr (huser e he))

theorem passes_of_probe (hone : f.table.OneEntryPerSequence)
    (h : ∀ k s, f.probe keys (some (internalFilterPolicy p)) k s = f.probe keys none k s) :
    f.Passes keys p := by
  intro b hb e he
  have hle : lookupKey e.userKey e.sequence ≤ e.key :=
    Entry.lookupKey_le_of_visible (f.table.wellFormed b hb e he) rfl (le_refl _)
  have hprobe := h e.userKey e.sequence
  unfold probe internalGet at hprobe
  rw [indexSeek_of_mem hone hb he] at hprobe
  dsimp only at hprobe
  rw [keyMayMatch_none, if_pos rfl] at hprobe
  have hkey : e.key.userKey = (lookupKey e.userKey e.sequence).userKey := rfl
  rw [keyMayMatch_congr hkey]
  by_contra hno
  rw [if_neg hno, filter_none, eq_comm, filter_eq_none_iff] at hprobe
  cases hseek : seek Entry.key b.entries (lookupKey e.userKey e.sequence) with
  | none => exact absurd (seek_eq_none_iff.mp hseek e he) (not_lt.mpr hle)
  | some x =>
    have hxe := le_of_seek (Table.strict_of_mem hb) hseek e he hle
    have hge : (lookupKey e.userKey e.sequence).userKey ≤ x.userKey :=
      InternalKey.userKey_mono (le_of_seek_eq_some hseek)
    have hxk : x.userKey = e.userKey := le_antisymm (InternalKey.userKey_mono hxe) hge
    exact hprobe x hseek (by simpa using hxk)

end TableFile

/-! ## Lookups -/

theorem Version.getLoop_congr {k : K} {key : InternalKey K} {cache cache' : TableCacheGet K V}
    (files : List (FileMetaData K))
    (h : ∀ f ∈ files, ∃ r r', cache f.number key = .ok r ∧ cache' f.number key = .ok r' ∧
      (∀ e ∈ r, e.key.WellFormed) ∧ (∀ e ∈ r', e.key.WellFormed) ∧
      r.filter (fun e => decide (e.userKey = k)) = r'.filter fun e => decide (e.userKey = k)) :
    getLoop cache k key files = getLoop cache' k key files := by
  induction files with
  | nil => rfl
  | cons f files ih =>
    grind [mem_cons_self, getLoop_cons, mem_cons_of_mem]

/-! ## The repaired files -/

section Repaired

variable [Inhabited K] [Inhabited V] {cfg : Config K V} {dbname : String} {d d' : Disk K V}
  {children : List FileName} {db : Db K V} {keys : KeyCodec K} {p : FilterPolicy}
  {dataEnd : Table K V → Nat} {stored : Nat → Option (String × List Bytes)}

/-- The filter block that a table gets under the given policy; `dataEnd` is the offset after its
    last data block. -/
def Table.filtersFor (keys : KeyCodec K) (dataEnd : Table K V → Nat) (policy : FilterPolicy)
    (t : Table K V) : String × List Bytes :=
  (policy.name, filterBlock policy (t.blockKeys keys) (dataEnd t))

/-- The table files after a repair: those of before with the filter blocks they had, and the
    converted logs, which `Repairer` writes with the user's policy. -/
def repairedFile (keys : KeyCodec K) (dataEnd : Table K V → Nat) (p : FilterPolicy)
    (d d' : Disk K V) (stored : Nat → Option (String × List Bytes)) (n : Nat) : TableFile K V where
  table := d'.store n
  filters := if (d.tables n).isSome then stored n
    else some ((d'.store n).filtersFor keys dataEnd p)

/-- The tables were written by `DBImpl`: the offsets of blocks go up, and a filter block under the
    name of the policy has been built with its `InternalFilterPolicy`. -/
structure StoredBy (keys : KeyCodec K) (dataEnd : Table K V → Nat) (p : FilterPolicy)
    (d : Disk K V) (stored : Nat → Option (String × List Bytes)) : Prop where
  offsets : ∀ n t, d.tables n = some t → t.blocks.Pairwise fun b c => b.offset ≤ c.offset
  filters : ∀ n t, d.tables n = some t → ∀ o, stored n = some o → o.1 = p.name →
    o = t.filtersFor keys dataEnd (internalFilterPolicy p)

omit [Inhabited K] [Inhabited V] in
theorem StoredBy.passes (h : StoredBy keys dataEnd p d stored) (hp : p.NoFalseNegatives)
    {n : Nat} {t : Table K V} (ht : d.tables n = some t) :
    TableFile.Passes keys p ⟨t, stored n⟩ := by
  intro b hb e he
  unfold TableFile.keyMayMatch
  dsimp only
  cases ho : stored n with
  | none => rfl
  | some o =>
    dsimp only
    split_ifs with hname
    · have hfilters := h.filters n t ht o ho hname
      rw [hfilters]
      have hsorted : (t.blockKeys keys).Pairwise fun a b => a.1 ≤ b.1 :=
        pairwise_map.mpr (h.offsets n t ht)
      exact filterBlock_keyMayMatch hp.internal hsorted (dataEnd t)
        (List.mem_map.mpr ⟨b, hb, rfl⟩) (List.mem_map.mpr ⟨e, he, rfl⟩)
    · rfl

omit [Inhabited K] [Inhabited V] in
theorem TableFile.internalGet_wellFormed {policy : Option FilterPolicy} {f : TableFile K V}
    {k : InternalKey K} {e : Entry K V} (h : f.internalGet keys policy k = some e) :
    e.key.WellFormed := by
  unfold TableFile.internalGet at h
  cases hb : f.table.indexSeek k with
  | none =>
    rw [hb] at h
    cases h
  | some b =>
    rw [hb] at h
    dsimp only at h
    split_ifs at h
    exact f.table.wellFormed b (mem_of_find?_eq_some hb) e (mem_of_seek_eq_some h)

omit [Inhabited K] [Inhabited V] in
theorem RepairedDb.get_congr (h : RepairedDb d' db) {files : Nat → TableFile K V}
    (hfiles : ∀ n t, d'.tables n = some t → (files n).Passes keys p) (k : K) :
    dbGet db.mem db.imm db.versions.current
        (TableFile.cacheGet keys (some (internalFilterPolicy p)) files) k db.versions.lastSequence =
      dbGet db.mem db.imm db.versions.current (TableFile.cacheGet keys none files) k
        db.versions.lastSequence := by
  have hget : db.versions.current.get
        (TableFile.cacheGet keys (some (internalFilterPolicy p)) files) k db.versions.lastSequence =
      db.versions.current.get (TableFile.cacheGet keys none files) k db.versions.lastSequence := by
    apply Version.getLoop_congr
    intro f hf
    rw [h.forEachOverlapping_eq, Version.mem_overlappingLevelZero] at hf
    obtain ⟨t, ht, -⟩ := h.files f hf.1
    exact ⟨_, _, rfl, rfl, fun e he => TableFile.internalGet_wellFormed he,
      fun e he => TableFile.internalGet_wellFormed he,
      TableFile.probe_eq_of_passes (hfiles _ t ht) k _⟩
  unfold dbGet
  rw [hget]

end Repaired

def oneLog : Disk Bytes String :=
  { Disk.empty with
    logs := AList.insert 1 ⟨[⟨1, [.put [97] "v"]⟩], 0, Nat.zero_le _⟩ ∅ }

theorem oneLog_lists : oneLog.Lists [.log 1] where
  nodup := by decide
  logs := by
    intro n
    unfold oneLog
    rw [AList.mem_insert]
    simp
  tables := by
    intro n
    simp [oneLog, Disk.empty]

theorem oneLog_intact : oneLog.LogsIntact := by
  intro n file h
  unfold oneLog at h
  by_cases hn : n = 1
  · rw [hn, AList.lookup_insert] at h
    rw [← Option.some.inj h]
    exact pairwise_singleton _ _
  · rw [AList.lookup_insert_ne hn] at h
    cases h

theorem oneLog_storedBy (dataEnd : Table Bytes String → Nat)
    (stored : Nat → Option (String × List Bytes)) :
    StoredBy .bytes dataEnd lengthPolicy oneLog stored where
  offsets := fun _ _ h => by cases h
  filters := fun _ _ h => by cases h

def oneEntry : Entry Bytes String := Op.entry (.put [97] "v") 1

def oneFile : FileMetaData Bytes := ⟨2, 2, oneEntry.key, oneEntry.key⟩

theorem oneLog_opened :
    ∃ d' db, repairDb (.oneBlock "bytewise" 0) "db" oneLog [.log 1] = .ok d' ∧
      (openDb (.oneBlock "bytewise" 0) d').2 = .ok db ∧
      (d'.tables 2).map Table.blocks = some [⟨oneEntry.key, 0, [oneEntry]⟩] ∧
      db.versions.current.files 0 = [oneFile] ∧ db.versions.lastSequence = 1 := by
  refine ⟨_, _, rfl, rfl, ?_, ?_, ?_⟩
  · rfl
  · decide +kernel
  · decide +kernel

def oneLogFiles (d' : Disk Bytes String) : Nat → TableFile Bytes String :=
  repairedFile .bytes (fun _ => 30) lengthPolicy oneLog d' fun _ => none

end LevelDB
