/-
  Approximate sizes of ranges (`VersionSet::ApproximateOffsetOf` in `db/version_set.cc` and
  `DBImpl::GetApproximateSizes` in `db/db_impl.cc`).

  The loop over a level stops early; on a sorted level this leaves out nothing (`levelOffset_eq`).
-/
import Mathlib.Algebra.Order.BigOperators.Group.List
import LevelDB.Table.ApproximateOffset
import LevelDB.Version.Shape

namespace LevelDB

open List

variable {K : Type} [LinearOrder K]

namespace Version

variable (tableOffset : FileMetaData K → InternalKey K → Nat)

/-- The loop of `ApproximateOffsetOf` over the files of a level. -/
def levelOffset (level : Nat) (ikey : InternalKey K) : List (FileMetaData K) → Nat
  | [] => 0
  | f :: rest =>
    if f.largest ≤ ikey then f.fileSize + levelOffset level ikey rest
    else if ikey < f.smallest then if 0 < level then 0 else levelOffset level ikey rest
    else tableOffset f ikey + levelOffset level ikey rest

def approximateOffsetOf (v : Version K) (ikey : InternalKey K) : Nat :=
  ((List.range kNumLevels).map fun level =>
    levelOffset tableOffset level ikey (v.files level)).sum

/-- One range of `GetApproximateSizes`. -/
def getApproximateSize (v : Version K) (start limit : K) : Nat :=
  let start := v.approximateOffsetOf tableOffset (lookupKey start kMaxSequenceNumber)
  let limit := v.approximateOffsetOf tableOffset (lookupKey limit kMaxSequenceNumber)
  if start ≤ limit then limit - start else 0

def totalSize (v : Version K) : Nat :=
  ((List.range kNumLevels).map fun level => totalFileSize (v.files level)).sum

/-! ## One file -/

def fileOffset (ikey : InternalKey K) (f : FileMetaData K) : Nat :=
  if f.largest ≤ ikey then f.fileSize else if ikey < f.smallest then 0 else tableOffset f ikey

variable {tableOffset}

theorem fileOffset_of_lt {ikey : InternalKey K} {f : FileMetaData K}
    (hr : f.smallest ≤ f.largest) (h : ikey < f.smallest) : fileOffset tableOffset ikey f = 0 := by
  unfold fileOffset
  rw [if_neg (not_le.mpr (h.trans_le hr)), if_pos h]

theorem levelOffset_eq {level : Nat} {files : List (FileMetaData K)}
    (hsort : 0 < level → SortedDisjoint files) (hr : ∀ f ∈ files, f.smallest ≤ f.largest)
    (ikey : InternalKey K) :
    levelOffset tableOffset level ikey files =
      (files.map (fileOffset tableOffset ikey)).sum := by
  induction files with
  | nil => rfl
  | cons f files ih =>
    have hfr := hr f mem_cons_self
    have hrest := ih (fun h => (pairwise_cons.mp (hsort h)).2)
      fun g hg => hr g (mem_cons_of_mem _ hg)
    rw [map_cons, sum_cons]
    unfold levelOffset fileOffset
    split_ifs with hbefore hafter hlevel
    · rw [hrest]; rfl
    · rw [Nat.zero_add]
      refine (sum_eq_zero fun n hn => ?_).symm
      obtain ⟨g, hg, rfl⟩ := List.mem_map.mp hn
      have hlt := (pairwise_cons.mp (hsort hlevel)).1 g hg
      exact fileOffset_of_lt (hr g (mem_cons_of_mem _ hg))
        (hafter.trans_le (hfr.trans hlt.le))
    · rw [hrest, Nat.zero_add]; rfl
    · rw [hrest]; rfl

theorem fileOffset_mono {f : FileMetaData K} (hr : f.smallest ≤ f.largest) {k k' : InternalKey K}
    (hle : k ≤ k') (hmono : tableOffset f k ≤ tableOffset f k')
    (hsize : tableOffset f k ≤ f.fileSize) :
    fileOffset tableOffset k f ≤ fileOffset tableOffset k' f := by
  by_cases hafter : k < f.smallest
  · rw [fileOffset_of_lt hr hafter]
    exact Nat.zero_le _
  · have hafter' : ¬ k' < f.smallest := fun h => hafter (hle.trans_lt h)
    unfold fileOffset
    rw [if_neg hafter, if_neg hafter']
    split_ifs with hk hk' hk'
    · exact le_refl _
    · exact absurd (hk.trans hle) hk'
    · exact hsize
    · exact hmono

theorem fileOffset_le {f : FileMetaData K} {k : InternalKey K}
    (hsize : tableOffset f k ≤ f.fileSize) : fileOffset tableOffset k f ≤ f.fileSize := by
  unfold fileOffset
  split_ifs
  · exact le_refl _
  · exact Nat.zero_le _
  · exact hsize

/-! ## All files -/

section Shape

variable {v : Version K} (hv : v.Shape)

include hv

theorem approximateOffsetOf_eq (ikey : InternalKey K) :
    v.approximateOffsetOf tableOffset ikey = ((List.range kNumLevels).map fun level =>
      ((v.files level).map (fileOffset tableOffset ikey)).sum).sum := by
  unfold approximateOffsetOf
  refine congrArg List.sum (map_congr_left fun level _ => ?_)
  exact levelOffset_eq (hv.levelsSorted level) (hv.ranged level) ikey

theorem approximateOffset_mono {k k' : InternalKey K} (hle : k ≤ k')
    (hmono : ∀ level, ∀ f ∈ v.files level, tableOffset f k ≤ tableOffset f k')
    (hsize : ∀ level, ∀ f ∈ v.files level, tableOffset f k ≤ f.fileSize) :
    v.approximateOffsetOf tableOffset k ≤ v.approximateOffsetOf tableOffset k' := by
  rw [approximateOffsetOf_eq hv, approximateOffsetOf_eq hv]
  refine sum_le_sum fun level _ => sum_le_sum fun f hf => ?_
  exact fileOffset_mono (hv.ranged level f hf) hle (hmono level f hf) (hsize level f hf)

theorem approximateOffset_le {k : InternalKey K}
    (hsize : ∀ level, ∀ f ∈ v.files level, tableOffset f k ≤ f.fileSize) :
    v.approximateOffsetOf tableOffset k ≤ v.totalSize := by
  rw [approximateOffsetOf_eq hv]
  exact sum_le_sum fun level _ => sum_le_sum fun f hf => fileOffset_le (hsize level f hf)

end Shape

end Version

/-! ## Sizes of ranges -/

theorem lookupKey_mono {a b : K} (h : a ≤ b) (s : Nat) : lookupKey a s ≤ lookupKey b s := by
  obtain h | rfl := h.lt_or_eq
  · exact (InternalKey.lt_of_userKey_lt h).le
  · exact le_refl _

/-- `TableCache::ApproximateOffsetOf` for the files with the given contents. -/
def tableOffsets (crc : Checksum) (topt : TableOptions) (contents : Nat → Bytes)
    (f : FileMetaData Bytes) (ikey : InternalKey Bytes) : Nat :=
  TableReader.cacheApproximateOffsetOf crc topt (contents f.number) f.fileSize
    (internalKeyBytes ikey)

def Version.one (f : FileMetaData K) : Version K where
  files level := if level = 1 then [f] else []
  files_eq_nil level h := if_neg (by unfold kNumLevels at h; omega)

omit [LinearOrder K] in
theorem Version.mem_one {f g : FileMetaData K} {level : Nat} (h : g ∈ (Version.one f).files level) :
    level = 1 ∧ g = f := by
  unfold Version.one at h
  dsimp only at h
  split_ifs at h with hlevel
  · exact ⟨hlevel, mem_singleton.mp h⟩
  · cases h

theorem Version.one_shape {f : FileMetaData K} (hr : f.smallest ≤ f.largest) :
    (Version.one f).Shape where
  canonical level := by
    unfold Version.one
    dsimp only
    split_ifs
    · exact pairwise_singleton _ _
    · exact List.Pairwise.nil
  ranged level g hg := by
    rw [(mem_one hg).2]
    exact hr
  apart level _ g hg g' hg' hne := absurd ((mem_one hg).2.trans (mem_one hg').2.symm) hne
  numbers i j g hg g' hg' _ :=
    ⟨(mem_one hg).1.trans (mem_one hg').1.symm, (mem_one hg).2.trans (mem_one hg').2.symm⟩

def approxKey (b : UInt8) : InternalKey Bytes := ⟨[b], packSequenceAndType 1 .value⟩

def approxTable : Bytes :=
  (TableBuilder.build crc32c pairOptions
    [(internalKeyBytes (approxKey 1), [10]), (internalKeyBytes (approxKey 5), [50])]).file

def approxFile : FileMetaData Bytes := ⟨7, approxTable.length, approxKey 1, approxKey 5⟩

section One

variable {tableOffset : FileMetaData K → InternalKey K → Nat} {f : FileMetaData K}

theorem Version.approximateOffsetOf_one {ikey : InternalKey K} (hs : f.smallest ≤ ikey)
    (hl : ikey < f.largest) :
    (Version.one f).approximateOffsetOf tableOffset ikey = tableOffset f ikey := by
  have hlevel : levelOffset tableOffset 1 ikey [f] = tableOffset f ikey := by
    rw [levelOffset, if_neg (not_le.mpr hl), if_neg (not_lt.mpr hs)]
    rfl
  show 0 + (levelOffset tableOffset 1 ikey [f] + 0) = _
  rw [hlevel, Nat.zero_add, Nat.add_zero]

omit [LinearOrder K] in
theorem Version.totalSize_one : (Version.one f).totalSize = f.fileSize := by
  show 0 + (f.fileSize + 0 + 0) = _
  omega

end One

def wrapTable (rest : Bytes) : Bytes :=
  (TableBuilder.build crc32c pairOptions (wrapEntries rest)).file

def wrapFile (rest : Bytes) : FileMetaData Bytes :=
  ⟨7, (wrapTable rest).length, TableOrder.internal.rank (wrapHead ++ rest), wrapLast⟩

theorem wrapKey_lt {rest : Bytes} (hrest : 8 ≤ rest.length) :
    TableOrder.internal.rank (wrapHead ++ rest) < wrapTarget := by
  refine InternalKey.lt_of_userKey_lt ?_
  show extractUserKey (wrapHead ++ rest) < [0xfe, 0xff]
  rw [extractUserKey_wrapped hrest]
  exact cons_lt_cons_iff.mpr (.inr ⟨rfl, cons_lt_cons_iff.mpr (.inl (by decide))⟩)

end LevelDB
