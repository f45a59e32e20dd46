/-
  The memtable in bytes (`db/memtable.cc`, `LookupKey` of `db/dbformat.cc`).

  An entry of the skip list is the internal key and the value, each with its length in front as a
  `uint32_t`; entries are compared by their internal keys. `MemTable` of `Db.MemTable` is the
  abstract form: entries that have been read, in a sorted list.
-/
import LevelDB.Db.MemTable
import LevelDB.Db.SkipList
import LevelDB.Table.BlockRoundTrip

namespace LevelDB

open List Cursor SortedList Multiversion

/-! ## Entries -/

/-- The arguments of `MemTable::Add`. -/
structure MemAdd where
  sequence : Nat
  type : ValueType
  key : Bytes
  value : Bytes
  deriving DecidableEq, Repr

namespace MemAdd

def internalKey (a : MemAdd) : Bytes :=
  a.key ++ encodeFixed64 (packSequenceAndType a.sequence a.type)

/-- The buffer that `MemTable::Add` fills. -/
def encode (a : MemAdd) : Bytes :=
  encodeVarint32 ((a.key.length + 8) % 2 ^ 32) ++ a.key ++
    encodeFixed64 (packSequenceAndType a.sequence a.type) ++
    encodeVarint32 (a.value.length % 2 ^ 32) ++ a.value

/-- The sizes that fit into the length prefixes, and the numbers that fit into a tag. -/
structure Fits (a : MemAdd) : Prop where
  key : a.key.length + 8 < 2 ^ 32
  value : a.value.length < 2 ^ 32
  sequence : a.sequence ≤ kMaxSequenceNumber

end MemAdd

namespace MemTableBytes

/-- `GetLengthPrefixedSlice` of `memtable.cc`, which looks for no end of the data: the slice, and
    what is behind it. -/
def prefixedSlice (data : Bytes) : Bytes × Bytes :=
  match getVarint32 data with
  | some (len, p) => (p.take len, p.drop len)
  | none => ([], [])

def encodeKey (target : Bytes) : Bytes := putLengthPrefixedSlice target

/-- `LookupKey(k, s).memtable_key()`. -/
def memtableKey (k : Bytes) (s : Nat) : Bytes :=
  encodeVarint32 ((k.length + 8) % 2 ^ 32) ++ lookupKeyBytes k s

/-- `MemTableIterator::key` and `value` at an entry. -/
def keyValue (entry : Bytes) : Bytes × Bytes :=
  let (key, rest) := prefixedSlice entry
  (key, (prefixedSlice rest).1)

section Table

variable (user : Comparator)

/-- `MemTable::KeyComparator`. -/
def compare (a b : Bytes) : Ordering :=
  Internal.compare user (prefixedSlice a).1 (prefixedSlice b).1

/-- `MemTable::Add`, with the height that `RandomHeight` gives. -/
def add (table : SkipList Bytes) (a : MemAdd) (height : Nat) : SkipList Bytes :=
  table.insert (compare user) a.encode height

/-- A memtable after some calls of `Add`. -/
def build (adds : List (MemAdd × Nat)) : SkipList Bytes :=
  adds.foldl (fun table a => add user table a.1 a.2) SkipList.init

def newIterator (table : SkipList Bytes) : Machine (Option Nat) (Bytes × Bytes) Bytes Status :=
  (SkipList.machine (compare user) table).map keyValue encodeKey

/-- What `MemTable::Get` answers with an entry of its key. -/
def answer (type : ValueType) (value : Bytes) : Except Status (Option Bytes) :=
  match type with
  | .value => .ok (some value)
  | .deletion => .error (.notFoundErr "deleted in memtable")

/-- What `MemTable::Get` does with the entry where the search ends. -/
def getEntry (entry k : Bytes) : Except Status (Option Bytes) :=
  match getVarint32 entry with
  | none => .ok none
  | some (keyLength, keyPtr) =>
    if user.compare (keyPtr.take ((keyLength + (2 ^ 32 - 8)) % 2 ^ 32)) k = .eq then
      match decodeFixed64 (keyPtr.drop (keyLength - 8)) &&& 0xff with
      | 0 => .error (.notFoundErr "deleted in memtable")
      | 1 => .ok (some (prefixedSlice (keyPtr.drop keyLength)).1)
      | _ => .ok none
    else .ok none

def get (table : SkipList Bytes) (k : Bytes) (s : Nat) : Except Status (Option Bytes) :=
  let iter := SkipList.machine (compare user) table (ε := Status)
  match iter.current (iter.seek (memtableKey k s) none) with
  | none => .ok none
  | some entry => getEntry user entry k

end Table

theorem get_eq_find (user : Comparator) (table : SkipList Bytes) (k : Bytes) (s : Nat) :
    get user table k s =
      match (table.findGreaterOrEqual (compare user) (memtableKey k s)).1.bind table.key with
      | none => .ok none
      | some entry => getEntry user entry k := rfl

theorem prefixedSlice_put {slice : Bytes} (h : slice.length < 2 ^ 32) (rest : Bytes) :
    prefixedSlice (putLengthPrefixedSlice slice ++ rest) = (slice, rest) := by
  unfold prefixedSlice putLengthPrefixedSlice
  rw [Nat.mod_eq_of_lt h, append_assoc, getVarint32_encodeVarint32 h]
  simp

end MemTableBytes

theorem packSequenceAndType_lt {s : Nat} (h : s ≤ kMaxSequenceNumber) (t : ValueType) :
    packSequenceAndType s t < 2 ^ 64 := by
  rw [packSequenceAndType_eq]
  have ht : t.toNat ≤ 1 := by cases t <;> decide
  have hmax : kMaxSequenceNumber = 2 ^ 56 - 1 := rfl
  omega

theorem Internal.rank_append {κ : Type} (userRank : Bytes → κ) (k : Bytes) {tag : Nat}
    (h : tag < 2 ^ 64) : Internal.rank userRank (k ++ encodeFixed64 tag) = ⟨userRank k, tag⟩ := by
  have hlen : (k ++ encodeFixed64 tag).length - 8 = k.length := by
    rw [length_append, length_encodeFixed64, Nat.add_sub_cancel]
  unfold Internal.rank extractUserKey extractTag
  rw [hlen, take_left, drop_left]
  have hdecode := decodeFixed64_encodeFixed64 h []
  rw [append_nil] at hdecode
  rw [hdecode]

namespace MemAdd

variable {a : MemAdd}

theorem length_internalKey (a : MemAdd) : a.internalKey.length = a.key.length + 8 := by
  unfold internalKey
  rw [length_append, length_encodeFixed64]

theorem encode_eq (a : MemAdd) :
    a.encode = putLengthPrefixedSlice a.internalKey ++ (putLengthPrefixedSlice a.value ++ []) := by
  unfold encode putLengthPrefixedSlice
  rw [length_internalKey, internalKey]
  simp only [append_assoc, append_nil]

section Rank

variable {κ : Type} (userRank : Bytes → κ)

def toEntry (a : MemAdd) : Entry κ Bytes :=
  ⟨InternalKey.ofParsed ⟨userRank a.key, a.sequence, a.type⟩, a.value⟩

@[simp] theorem userKey_toEntry (a : MemAdd) : (a.toEntry userRank).userKey = userRank a.key := rfl

@[simp] theorem sequence_toEntry (a : MemAdd) : (a.toEntry userRank).sequence = a.sequence :=
  ofParsed_sequence _

theorem wellFormed_toEntry (a : MemAdd) : (a.toEntry userRank).key.WellFormed :=
  ofParsed_wellFormed _

end Rank

end MemAdd

/-! ## The order of the entries -/

namespace MemTableBytes

theorem getEntry_encode {κ : Type} [LinearOrder κ] {user : Comparator} {userRank : Bytes → κ}
    (huser : Compares user.compare userRank) {a : MemAdd} (hlen : a.key.length + 8 < 2 ^ 32)
    (hsequence : a.sequence ≤ kMaxSequenceNumber) (k : Bytes) :
    getEntry user a.encode k =
      if userRank a.key = userRank k then
        answer a.type (prefixedSlice (putLengthPrefixedSlice a.value ++ [])).1
      else .ok none := by
  have hread : getVarint32 a.encode = some (a.key.length + 8, a.internalKey ++
      (putLengthPrefixedSlice a.value ++ [])) := by
    rw [a.encode_eq, putLengthPrefixedSlice, a.length_internalKey, Nat.mod_eq_of_lt hlen,
      append_assoc, getVarint32_encodeVarint32 hlen]
  have huserKey : (a.key.length + 8 + (2 ^ 32 - 8)) % 2 ^ 32 = a.key.length := by omega
  unfold getEntry
  rw [hread]
  dsimp only
  rw [huserKey, Nat.add_sub_cancel, drop_left' a.length_internalKey, MemAdd.internalKey,
    append_assoc, take_left, drop_left,
    decodeFixed64_encodeFixed64 (packSequenceAndType_lt hsequence a.type)]
  have htag : packSequenceAndType a.sequence a.type &&& 0xff = a.type.toNat := by
    rw [packSequenceAndType_eq, show (0xff : Nat) = 2 ^ 8 - 1 from rfl,
      Nat.and_two_pow_sub_one_eq_mod]
    cases a.type <;> simp [ValueType.toNat]
  by_cases hkey : userRank a.key = userRank k
  · rw [if_pos (huser.eq_iff.mpr hkey), if_pos hkey, htag]
    cases a.type <;> rfl
  · rw [if_neg fun heq => hkey (huser.eq_iff.mp heq), if_neg hkey]

section Rank

variable {κ : Type} (userRank : Bytes → κ)

def read (entry : Bytes) : Entry κ Bytes :=
  ⟨Internal.rank userRank (keyValue entry).1, (keyValue entry).2⟩

theorem prefixedSlice_encode {a : MemAdd} (hlen : a.key.length + 8 < 2 ^ 32) :
    prefixedSlice a.encode = (a.internalKey, putLengthPrefixedSlice a.value ++ []) := by
  rw [← a.length_internalKey] at hlen
  rw [a.encode_eq, prefixedSlice_put hlen]

theorem keyValue_encode {a : MemAdd} (h : a.Fits) :
    keyValue a.encode = (a.internalKey, a.value) := by
  unfold keyValue
  rw [prefixedSlice_encode h.key]
  dsimp only
  rw [prefixedSlice_put h.value]

theorem key_read_encode {a : MemAdd} (hlen : a.key.length + 8 < 2 ^ 32)
    (hsequence : a.sequence ≤ kMaxSequenceNumber) :
    (read userRank a.encode).key = (a.toEntry userRank).key := by
  unfold read keyValue
  rw [prefixedSlice_encode hlen]
  exact Internal.rank_append userRank a.key (packSequenceAndType_lt hsequence a.type)

theorem read_encode {a : MemAdd} (h : a.Fits) : read userRank a.encode = a.toEntry userRank := by
  have hkey := key_read_encode userRank h.key h.sequence
  have hvalue : (read userRank a.encode).value = a.value := by
    unfold read
    rw [keyValue_encode h]
  show Entry.mk (read userRank a.encode).key (read userRank a.encode).value = _
  rw [hkey, hvalue]
  rfl

end Rank

theorem key_read_encodeKey {κ : Type} {userRank : Bytes → κ} {t : Bytes} (h : t.length < 2 ^ 32) :
    (read userRank (encodeKey t)).key = Internal.rank userRank t := by
  have hslice := prefixedSlice_put h []
  rw [append_nil] at hslice
  unfold read keyValue encodeKey
  rw [hslice]

theorem key_read_memtableKey {κ : Type} {userRank : Bytes → κ} {k : Bytes}
    (hk : k.length + 8 < 2 ^ 32) {s : Nat} (hs : s ≤ kMaxSequenceNumber) :
    (read userRank (memtableKey k s)).key = lookupKey (userRank k) s := by
  have hlen : (lookupKeyBytes k s).length = k.length + 8 := by
    unfold lookupKeyBytes
    rw [length_append, length_encodeFixed64]
  have hput : memtableKey k s = encodeKey (lookupKeyBytes k s) := by
    unfold memtableKey encodeKey putLengthPrefixedSlice
    rw [hlen]
  rw [hput, key_read_encodeKey (by omega)]
  exact Internal.rank_append userRank k (packSequenceAndType_lt hs _)

theorem key_ne_of_distinct {κ : Type} {userRank : Bytes → κ} {a b : MemAdd}
    (h : (userRank a.key, a.sequence) ≠ (userRank b.key, b.sequence)) :
    (a.toEntry userRank).key ≠ (b.toEntry userRank).key := by
  intro heq
  have hsequence : (a.toEntry userRank).sequence = (b.toEntry userRank).sequence :=
    congrArg InternalKey.sequence heq
  rw [MemAdd.sequence_toEntry, MemAdd.sequence_toEntry] at hsequence
  exact h (Prod.ext (congrArg InternalKey.userKey heq) hsequence)

variable {κ : Type} [LinearOrder κ] {user : Comparator} {userRank : Bytes → κ}

theorem compares (huser : Compares user.compare userRank) :
    Compares (compare user) fun entry => (read userRank entry).key :=
  ⟨(Internal.compares huser).lt_iff, (Internal.compares huser).eq_iff⟩

/-- The skip list has the entries of `adds`, in internal key order. -/
structure Holds (userRank : Bytes → κ) (table : SkipList Bytes) (adds : List MemAdd)
    (order : List Nat) : Prop where
  ordered : ∃ height, table.Ordered (fun entry => (read userRank entry).key) height order
  keys : table.keys = adds.map MemAdd.encode
  fits : ∀ a ∈ adds, a.Fits

/-- No two calls of `Add` have the same user key and sequence number. -/
def Distinct (userRank : Bytes → κ) (adds : List MemAdd) : Prop :=
  adds.Pairwise fun a b => (userRank a.key, a.sequence) ≠ (userRank b.key, b.sequence)

theorem Holds.add {table : SkipList Bytes} {adds : List MemAdd} {order : List Nat}
    (h : Holds userRank table adds order) (huser : Compares user.compare userRank) {a : MemAdd}
    (ha : a.Fits) {height : Nat} (hheight : 1 ≤ height)
    (hnew : ∀ b ∈ adds, (userRank b.key, b.sequence) ≠ (userRank a.key, a.sequence)) :
    ∃ order', Holds userRank (add user table a height) (adds ++ [a]) order' := by
  obtain ⟨_, hordered⟩ := h.ordered
  have hne : ∀ entry ∈ table.keys, (read userRank entry).key ≠ (read userRank a.encode).key := by
    intro entry hentry
    rw [h.keys] at hentry
    obtain ⟨b, hb, rfl⟩ := List.mem_map.mp hentry
    rw [read_encode userRank (h.fits b hb), read_encode userRank ha]
    exact key_ne_of_distinct (hnew b hb)
  obtain ⟨order', hordered'⟩ := hordered.insert (compares huser) hheight hne
  refine ⟨order', ⟨_, hordered'⟩, ?_, ?_⟩
  · show table.keys ++ [a.encode] = _
    rw [h.keys, map_append, map_singleton]
  · intro b hb
    obtain hb | hb := mem_append.mp hb
    · exact h.fits b hb
    · exact mem_singleton.mp hb ▸ ha

theorem holds_build (huser : Compares user.compare userRank) {adds : List (MemAdd × Nat)}
    (hfits : ∀ a ∈ adds, a.1.Fits) (hheight : ∀ a ∈ adds, 1 ≤ a.2)
    (hdistinct : Distinct userRank (adds.map Prod.fst)) :
    ∃ order, Holds userRank (build user adds) (adds.map Prod.fst) order := by
  induction adds using List.reverseRecOn with
  | nil =>
    exact ⟨[], ⟨fun _ => 0, SkipList.ordered_init _ _⟩, rfl, fun a ha => absurd ha not_mem_nil⟩
  | append_singleton adds a ih =>
    rw [map_append, map_singleton] at hdistinct ⊢
    obtain ⟨hrest, -, hnew⟩ := pairwise_append.mp hdistinct
    obtain ⟨order, h⟩ := ih (fun b hb => hfits b (mem_append_left _ hb))
      (fun b hb => hheight b (mem_append_left _ hb)) hrest
    have hlast : a ∈ adds ++ [a] := mem_append_right _ (mem_singleton.mpr rfl)
    have hbuild : build user (adds ++ [a]) = MemTableBytes.add user (build user adds) a.1 a.2 := by
      unfold build
      rw [foldl_append]
      rfl
    rw [hbuild]
    exact h.add huser (hfits a hlast) (hheight a hlast)
      fun b hb => hnew b hb a.1 (mem_singleton.mpr rfl)

/-! ## The abstract memtable -/

section Holds

variable {table : SkipList Bytes} {adds : List MemAdd} {order : List Nat}
  (h : Holds userRank table adds order)

include h

theorem Holds.perm : (order.filterMap table.key).Perm (adds.map MemAdd.encode) := by
  obtain ⟨_, hordered⟩ := h.ordered
  exact h.keys ▸ hordered.keys_perm

theorem Holds.exists_add {entry : Bytes} (hentry : entry ∈ order.filterMap table.key) :
    ∃ a ∈ adds, a.Fits ∧ a.encode = entry := by
  obtain ⟨a, ha, rfl⟩ := List.mem_map.mp (h.perm.mem_iff.mp hentry)
  exact ⟨a, ha, h.fits a ha, rfl⟩

theorem Holds.strict_read : Strict Entry.key ((order.filterMap table.key).map (read userRank)) := by
  obtain ⟨_, hordered⟩ := h.ordered
  exact pairwise_map.mpr hordered.sorted

theorem Holds.mem_read {e : Entry κ Bytes} :
    e ∈ (order.filterMap table.key).map (read userRank) ↔ ∃ a ∈ adds, a.toEntry userRank = e := by
  rw [(h.perm.map (read userRank)).mem_iff, List.map_map, List.mem_map]
  refine exists_congr fun a => and_congr_right fun ha => ?_
  rw [Function.comp_apply, read_encode userRank (h.fits a ha)]

theorem Holds.find {k : Bytes} (hk : k.length + 8 < 2 ^ 32) {s : Nat}
    (hs : s ≤ kMaxSequenceNumber) (huser : Compares user.compare userRank) :
    ∃ i : Nat, (table.findGreaterOrEqual (compare user) (memtableKey k s)).1.bind table.key =
        (order.filterMap table.key)[i]? ∧
      SortedList.seek Entry.key ((order.filterMap table.key).map (read userRank))
        (lookupKey (userRank k) s) = (order.filterMap table.key)[i]?.map (read userRank) := by
  obtain ⟨_, hordered⟩ := h.ordered
  obtain ⟨i, hcut⟩ := Machine.exists_cutAt h.strict_read (lookupKey (userRank k) s)
  have hcut' : Machine.CutAt (fun entry => (read userRank entry).key)
      (order.filterMap table.key) (lookupKey (userRank k) s) i := hcut.of_map fun _ _ => rfl
  rw [← key_read_memtableKey hk hs] at hcut'
  refine ⟨i, ?_, ?_⟩
  · rw [hordered.findGreaterOrEqual_eq (compares huser) hcut', hordered.getElem?_keys]
  · rw [hcut.find_eq, getElem?_map]

theorem Holds.get_eq {k : Bytes} (hk : k.length + 8 < 2 ^ 32) {s : Nat}
    (hs : s ≤ kMaxSequenceNumber) (huser : Compares user.compare userRank) :
    get user table k s =
      MemTable.get ((order.filterMap table.key).map (read userRank)) (userRank k) s := by
  obtain ⟨i, hfind, hseek⟩ := h.find hk hs huser
  rw [get_eq_find, hfind]
  unfold MemTable.get MemTable.probe
  rw [hseek]
  cases hentry : (order.filterMap table.key)[i]? with
  | none => rfl
  | some entry =>
    obtain ⟨a, -, ha, rfl⟩ := h.exists_add (mem_of_getElem? hentry)
    dsimp only
    rw [getEntry_encode huser ha.key ha.sequence, prefixedSlice_put ha.value, Option.map_some, read_encode userRank ha, Option.filter_some,
      MemAdd.userKey_toEntry]
    by_cases hkey : userRank a.key = userRank k
    · rw [if_pos hkey, decide_eq_true hkey, if_pos rfl]
      dsimp only
      rw [MemAdd.toEntry, parseInternalKey_ofParsed]
      rfl
    · rw [if_neg hkey, decide_eq_false hkey]
      rfl

theorem Holds.faithful (huser : Compares user.compare userRank) :
    (newIterator user table).Faithful (fun e => Internal.rank userRank e.1)
      (Internal.rank userRank) (fun t => 8 ≤ t.length ∧ t.length < 2 ^ 32)
      ((order.filterMap table.key).map keyValue) (fun node i => node = order[i]?) := by
  obtain ⟨_, hordered⟩ := h.ordered
  refine (hordered.faithful (compares huser)).map (fun _ _ => rfl) ?_
  exact fun t ht => ⟨trivial, key_read_encodeKey ht.2⟩

theorem Holds.strict_keyValue : Strict (fun e : Bytes × Bytes => Internal.rank userRank e.1)
    ((order.filterMap table.key).map keyValue) := by
  obtain ⟨_, hordered⟩ := h.ordered
  exact pairwise_map.mpr hordered.sorted

theorem Holds.perm_keyValue : ((order.filterMap table.key).map keyValue).Perm
    (adds.map fun a => (a.internalKey, a.value)) := by
  refine (h.perm.map keyValue).trans (List.Perm.of_eq ?_)
  rw [List.map_map]
  exact map_congr_left fun a ha => keyValue_encode (h.fits a ha)

end Holds

/-! ## Lookups -/

/-- `a` is the call of `Add` for `k` with the largest sequence number up to `s`. -/
def NewestFor (userRank : Bytes → κ) (adds : List MemAdd) (k : Bytes) (s : Nat) (a : MemAdd) : Prop :=
  a ∈ adds ∧ userRank a.key = userRank k ∧ a.sequence ≤ s ∧
    ∀ b ∈ adds, userRank b.key = userRank k → b.sequence ≤ s → b.sequence ≤ a.sequence

section Lookup

variable {table : SkipList Bytes} {adds : List MemAdd} {order : List Nat}
  (h : Holds userRank table adds order) (hdistinct : Distinct userRank adds)

include h

theorem Holds.probe_answers (k : Bytes) (s : Nat) :
    Answers Entry.userKey Entry.tag {e | ∃ a ∈ adds, a.toEntry userRank = e} (userRank k)
      (packSequenceAndType s kValueTypeForSeek)
      (MemTable.probe ((order.filterMap table.key).map (read userRank)) (userRank k) s) := by
  have hwf : ∀ e ∈ (order.filterMap table.key).map (read userRank), e.key.WellFormed := by
    intro e he
    obtain ⟨a, -, rfl⟩ := h.mem_read.mp he
    exact a.wellFormed_toEntry userRank
  exact (MemTable.probe_answers h.strict_read hwf (userRank k) s).congr fun e _ => h.mem_read

include hdistinct

theorem Holds.probe_newest {k : Bytes} {s : Nat} {a : MemAdd}
    (ha : NewestFor userRank adds k s a) :
    MemTable.probe ((order.filterMap table.key).map (read userRank)) (userRank k) s =
      some (a.toEntry userRank) := by
  obtain ⟨hmem, hkey, hle, hmax⟩ := ha
  have hvisible : ∀ b : MemAdd, (b.toEntry userRank).tag ≤
      packSequenceAndType s kValueTypeForSeek ↔ b.sequence ≤ s := by
    intro b
    rw [← b.sequence_toEntry userRank]
    exact tag_le_lookup_iff (b.wellFormed_toEntry userRank) s
  have hanswers := h.probe_answers k s
  cases hprobe : MemTable.probe ((order.filterMap table.key).map (read userRank)) (userRank k) s with
  | none =>
    rw [hprobe] at hanswers
    exact absurd ⟨_, ⟨a, hmem, rfl⟩, hkey, (hvisible a).mpr hle⟩ hanswers
  | some e =>
    rw [hprobe] at hanswers
    obtain ⟨⟨b, hb, rfl⟩, hbkey, hble, hbmax⟩ := hanswers
    have hba := hmax b hb hbkey ((hvisible b).mp hble)
    have hab := Entry.sequence_le_of_tag_le (hbmax _ ⟨a, hmem, rfl⟩ hkey ((hvisible a).mpr hle))
    rw [MemAdd.sequence_toEntry, MemAdd.sequence_toEntry] at hab
    have hnodup : (adds.map fun a => (userRank a.key, a.sequence)).Nodup :=
      pairwise_map.mpr hdistinct
    rw [inj_on_of_nodup_map hnodup hb hmem
      (Prod.ext (hbkey.trans hkey.symm) (le_antisymm hba hab))]

omit hdistinct in
theorem Holds.probe_absent {k : Bytes} {s : Nat}
    (habsent : ∀ a ∈ adds, userRank a.key = userRank k → s < a.sequence) :
    MemTable.probe ((order.filterMap table.key).map (read userRank)) (userRank k) s = none := by
  have hanswers := h.probe_answers k s
  cases hprobe : MemTable.probe ((order.filterMap table.key).map (read userRank)) (userRank k) s with
  | none => rfl
  | some e =>
    rw [hprobe] at hanswers
    obtain ⟨⟨b, hb, rfl⟩, hbkey, hble, -⟩ := hanswers
    have hle := (tag_le_lookup_iff (b.wellFormed_toEntry userRank) s).mp hble
    have hlt := habsent b hb hbkey
    rw [← b.sequence_toEntry userRank] at hlt
    exact absurd hle (not_le.mpr hlt)

end Lookup

def threeAdds : List (MemAdd × Nat) :=
  [(⟨1, .value, [97], [1]⟩, 3), (⟨3, .value, [97, 98], [2]⟩, 12), (⟨2, .deletion, [97], []⟩, 1)]

theorem get_single (huser : Compares user.compare userRank) {a : MemAdd}
    (hlen : a.key.length + 8 < 2 ^ 32) (hsequence : a.sequence ≤ kMaxSequenceNumber)
    {height : Nat} (hheight : 1 ≤ height) :
    get user (build user [(a, height)]) a.key a.sequence =
      answer a.type (prefixedSlice (putLengthPrefixedSlice a.value ++ [])).1 := by
  have hnew : ∀ entry ∈ SkipList.init.keys,
      (read userRank entry).key ≠ (read userRank a.encode).key :=
    fun entry hentry => absurd hentry not_mem_nil
  obtain ⟨_, order, hordered⟩ : ∃ heights order, (build user [(a, height)]).Ordered
      (fun entry => (read userRank entry).key) heights order :=
    ⟨_, (SkipList.ordered_init _ fun _ => 0).insert (compares huser) hheight hnew⟩
  have hkeys : order.filterMap (build user [(a, height)]).key = [a.encode] :=
    perm_singleton.mp hordered.keys_perm
  have hcut : Machine.CutAt (fun entry => (read userRank entry).key) [a.encode]
      (read userRank (memtableKey a.key a.sequence)).key 0 := by
    refine ⟨Nat.zero_le _, fun i e _ hi => absurd hi (Nat.not_lt_zero i), ?_⟩
    intro i e he _
    rw [mem_singleton.mp (mem_of_getElem? he), key_read_encode userRank hlen hsequence,
      key_read_memtableKey hlen hsequence]
    exact Entry.lookupKey_le_of_visible (a.wellFormed_toEntry userRank) rfl
      (a.sequence_toEntry userRank).le
  have hfind : ((build user [(a, height)]).findGreaterOrEqual (compare user)
      (memtableKey a.key a.sequence)).1.bind (build user [(a, height)]).key = some a.encode := by
    rw [← hkeys] at hcut
    rw [hordered.findGreaterOrEqual_eq (compares huser) hcut, ← hordered.getElem?_keys, hkeys]
    rfl
  rw [get_eq_find, hfind]
  dsimp only
  rw [getEntry_encode huser hlen hsequence, if_pos rfl]

theorem prefixedSlice_long {value : Bytes} (h : value.length = 2 ^ 32) :
    (prefixedSlice (putLengthPrefixedSlice value ++ [])).1 = [] := by
  simp_all [Nat.mod_self, prefixedSlice, putLengthPrefixedSlice, getVarint32_encodeVarint32]

end MemTableBytes

end LevelDB
