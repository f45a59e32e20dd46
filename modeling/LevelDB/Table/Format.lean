/-
  Handles, footers and stored blocks (`table/format.h`, `table/format.cc`, and `WriteRawBlock` in
  `table/table_builder.cc`).

  A stored block is followed by a type byte and a checksum of both; a handle gives its offset and
  its size. Compressed blocks are written by no builder, and without a compression library their
  length cannot be read.
-/
import LevelDB.DbFormat
import LevelDB.Util.Crc32c

namespace LevelDB

open List

/-- `class BlockHandle`. -/
structure BlockHandle where
  offset : Nat
  size : Nat
  deriving DecidableEq, Repr

namespace BlockHandle

def kMaxEncodedLength : Nat := 10 + 10

def encodeTo (h : BlockHandle) : Bytes := encodeVarint64 h.offset ++ encodeVarint64 h.size

/-- `DecodeFrom`: the handle and the rest of the input. -/
def decodeFrom (input : Bytes) : Except Status (BlockHandle × Bytes) := do
  let (offset, input) ← orError "bad block handle (offset)" (getVarint64 input)
  let (size, input) ← orError "bad block handle (size)" (getVarint64 input)
  return (⟨offset, size⟩, input)

theorem length_encodeVarintLoop_le (turns v : Nat) : (encodeVarintLoop turns v).length ≤ turns := by
  induction turns generalizing v with
  | zero => exact le_refl _
  | succ turns ih =>
    rw [encodeVarintLoop]
    split_ifs
    · exact Nat.succ_le_succ (ih _)
    · exact Nat.succ_le_succ (Nat.zero_le _)

theorem length_encodeTo_le (h : BlockHandle) : h.encodeTo.length ≤ kMaxEncodedLength := by
  unfold encodeTo
  rw [length_append]
  exact Nat.add_le_add (length_encodeVarintLoop_le 10 _) (length_encodeVarintLoop_le 10 _)

theorem decodeFrom_encodeTo {h : BlockHandle} (hoffset : h.offset < 2 ^ 64) (hsize : h.size < 2 ^ 64)
    (rest : Bytes) : decodeFrom (h.encodeTo ++ rest) = .ok (h, rest) := by
  unfold decodeFrom encodeTo
  rw [append_assoc]
  simp only [getVarint64_encodeVarint64 hoffset, orError, bind, Except.bind,
    getVarint64_encodeVarint64 hsize]
  rfl

theorem encodeTo_inj {a b : BlockHandle} (ha : a.offset < 2 ^ 64 ∧ a.size < 2 ^ 64)
    (hb : b.offset < 2 ^ 64 ∧ b.size < 2 ^ 64) (h : a.encodeTo = b.encodeTo) : a = b := by
  have hread := decodeFrom_encodeTo ha.1 ha.2 []
  rw [h, decodeFrom_encodeTo hb.1 hb.2 []] at hread
  exact (congrArg Prod.fst (Except.ok.inj hread)).symm

end BlockHandle

/-! ## The footer -/

/-- `class Footer`. -/
structure Footer where
  metaindexHandle : BlockHandle
  indexHandle : BlockHandle
  deriving DecidableEq, Repr

def kTableMagicNumber : Nat := 0xdb4775248b80fb57

def resize (bytes : Bytes) (n : Nat) : Bytes :=
  bytes.take n ++ List.replicate (n - bytes.length) 0

theorem length_resize (bytes : Bytes) (n : Nat) : (resize bytes n).length = n := by
  unfold resize
  rw [length_append, length_take, length_replicate]
  omega

namespace Footer

def kEncodedLength : Nat := 2 * BlockHandle.kMaxEncodedLength + 8

def encodeTo (f : Footer) : Bytes :=
  resize (f.metaindexHandle.encodeTo ++ f.indexHandle.encodeTo) (2 * BlockHandle.kMaxEncodedLength) ++
    (encodeFixed32 (UInt32.ofNat (kTableMagicNumber &&& 0xffffffff)) ++
      encodeFixed32 (UInt32.ofNat (kTableMagicNumber >>> 32)))

/-- `DecodeFrom`. What follows the footer is not returned. -/
def decodeFrom (input : Bytes) : Except Status Footer :=
  if input.length < kEncodedLength then
    .error (.corruptionErr "not an sstable (footer too short)")
  else
    let magicLo := decodeFixed32 (input.drop (kEncodedLength - 8))
    let magicHi := decodeFixed32 (input.drop (kEncodedLength - 4))
    if magicHi.toNat <<< 32 ||| magicLo.toNat ≠ kTableMagicNumber then
      .error (.corruptionErr "not an sstable (bad magic number)")
    else do
      let (metaindexHandle, input) ← BlockHandle.decodeFrom input
      let (indexHandle, _) ← BlockHandle.decodeFrom input
      return ⟨metaindexHandle, indexHandle⟩

theorem length_encodeTo (f : Footer) : f.encodeTo.length = kEncodedLength := by
  unfold encodeTo
  rw [length_append, length_append, length_resize, length_encodeFixed32,
    length_encodeFixed32]
  rfl

theorem decodeFrom_encodeTo {f : Footer}
    (hmeta : f.metaindexHandle.offset < 2 ^ 64 ∧ f.metaindexHandle.size < 2 ^ 64)
    (hindex : f.indexHandle.offset < 2 ^ 64 ∧ f.indexHandle.size < 2 ^ 64) :
    decodeFrom f.encodeTo = .ok f := by
  have hlen := length_encodeTo f
  have hhandles : (f.metaindexHandle.encodeTo ++ f.indexHandle.encodeTo).length ≤
      2 * BlockHandle.kMaxEncodedLength := by
    have := f.metaindexHandle.length_encodeTo_le
    have := f.indexHandle.length_encodeTo_le
    rw [length_append]
    omega
  have hlo : f.encodeTo.drop (kEncodedLength - 8) =
      encodeFixed32 (UInt32.ofNat (kTableMagicNumber &&& 0xffffffff)) ++
        encodeFixed32 (UInt32.ofNat (kTableMagicNumber >>> 32)) :=
    drop_left' (length_resize _ _)
  have hhi : f.encodeTo.drop (kEncodedLength - 4) =
      encodeFixed32 (UInt32.ofNat (kTableMagicNumber >>> 32)) ++ [] := by
    rw [show kEncodedLength - 4 = kEncodedLength - 8 + 4 from rfl, ← drop_drop, hlo,
      append_nil]
    exact drop_left' (length_encodeFixed32 _)
  unfold decodeFrom
  dsimp only
  rw [if_neg (by rw [hlen]; exact lt_irrefl _), hlo, hhi, decodeFixed32_encodeFixed32,
    decodeFixed32_encodeFixed32, if_neg (not_not.mpr (by decide))]
  unfold encodeTo resize
  rw [take_of_length_le hhandles, append_assoc, append_assoc]
  simp only [BlockHandle.decodeFrom_encodeTo hmeta.1 hmeta.2, bind, Except.bind,
    BlockHandle.decodeFrom_encodeTo hindex.1 hindex.2]
  rfl

end Footer

/-! ## Stored blocks -/

/-- `kBlockTrailerSize`: the type and the checksum. -/
def kBlockTrailerSize : Nat := 5

/-- `RandomAccessFile::Read`: the bytes that are there. -/
def readAt (file : Bytes) (offset n : Nat) : Bytes := (file.drop offset).take n

/-- `ReadBlock`. The number of bytes to read is a `size_t`. -/
def readBlock (crc : Checksum) (file : Bytes) (verifyChecksums : Bool) (handle : BlockHandle) :
    Except Status Bytes :=
  let n := handle.size
  let contents := readAt file handle.offset ((n + kBlockTrailerSize) % 2 ^ 64)
  if contents.length ≠ (n + kBlockTrailerSize) % 2 ^ 64 then
    .error (.corruptionErr "truncated block read")
  else if verifyChecksums ∧
      crc.value (contents.take (n + 1)) ≠ unmask (decodeFixed32 (contents.drop (n + 1))) then
    .error (.corruptionErr "block checksum mismatch")
  else
    match contents.getD n 0 with
    | 0 => .ok (contents.take n)
    | 1 => .error (.corruptionErr "corrupted snappy compressed block length")
    | 2 => .error (.corruptionErr "corrupted zstd compressed block length")
    | _ => .error (.corruptionErr "bad block type")

/-- What `WriteRawBlock` appends for a block that is not compressed. -/
def rawBlock (crc : Checksum) (contents : Bytes) : Bytes :=
  contents ++ (0 :: encodeFixed32 (mask (crc.extend (crc.value contents) [0])))

theorem length_rawBlock (crc : Checksum) (contents : Bytes) :
    (rawBlock crc contents).length = contents.length + kBlockTrailerSize := by
  unfold rawBlock
  rw [length_append, length_cons, length_encodeFixed32]
  rfl

def Stored (crc : Checksum) (file : Bytes) (handle : BlockHandle) (contents : Bytes) : Prop :=
  ∃ before after, file = before ++ (rawBlock crc contents ++ after) ∧
    handle = ⟨before.length, contents.length⟩

section Stored

variable {crc : Checksum} {file : Bytes} {handle : BlockHandle} {contents : Bytes}

theorem Stored.append (h : Stored crc file handle contents) (rest : Bytes) :
    Stored crc (file ++ rest) handle contents := by
  obtain ⟨before, after, rfl, hhandle⟩ := h
  exact ⟨before, after ++ rest, by simp only [append_assoc], hhandle⟩

theorem stored_last (crc : Checksum) (file contents : Bytes) :
    Stored crc (file ++ rawBlock crc contents) ⟨file.length, contents.length⟩ contents :=
  ⟨file, [], by rw [append_nil], rfl⟩

theorem Stored.fits (h : Stored crc file handle contents) :
    handle.size = contents.length ∧
      handle.offset + handle.size + kBlockTrailerSize ≤ file.length := by
  obtain ⟨before, after, rfl, rfl⟩ := h
  refine ⟨rfl, ?_⟩
  rw [length_append, length_append, length_rawBlock]
  dsimp only
  omega

/-- **Stored blocks** are read back. -/
theorem Stored.readBlock_eq (h : Stored crc file handle contents) (hfile : file.length < 2 ^ 64)
    (verifyChecksums : Bool) : readBlock crc file verifyChecksums handle = .ok contents := by
  obtain ⟨-, hfits⟩ := h.fits
  obtain ⟨before, after, rfl, rfl⟩ := h
  dsimp only at hfits
  have hread : readAt (before ++ (rawBlock crc contents ++ after)) before.length
      (contents.length + kBlockTrailerSize) = rawBlock crc contents := by
    unfold readAt
    rw [drop_left, take_left' (length_rawBlock crc contents)]
  have hlt : (contents.length + kBlockTrailerSize) % 2 ^ 64 = contents.length + kBlockTrailerSize :=
    Nat.mod_eq_of_lt (by omega)
  have hbody : (rawBlock crc contents).take (contents.length + 1) = contents ++ [0] := by
    have hsplit : rawBlock crc contents = (contents ++ [0]) ++
        encodeFixed32 (mask (crc.extend (crc.value contents) [0])) := by
      unfold rawBlock
      rw [append_assoc]
      rfl
    rw [hsplit]
    exact take_left' (by rw [length_append]; rfl)
  have hcrc : unmask (decodeFixed32 ((rawBlock crc contents).drop (contents.length + 1))) =
      crc.value (contents ++ [0]) := by
    have hdrop : (rawBlock crc contents).drop (contents.length + 1) =
        encodeFixed32 (mask (crc.extend (crc.value contents) [0])) ++ [] := by
      unfold rawBlock
      rw [← drop_drop, drop_left, append_nil]
      rfl
    rw [hdrop, decodeFixed32_encodeFixed32, unmask_mask]
    exact (crc.extend_append 0 contents [0]).symm
  have htype : (rawBlock crc contents).getD contents.length 0 = 0 := by
    unfold rawBlock
    rw [getD_eq_getElem?_getD, getElem?_append_right (le_refl _), Nat.sub_self]
    rfl
  have hcontents : (rawBlock crc contents).take contents.length = contents := by
    unfold rawBlock
    exact take_left
  unfold readBlock
  dsimp only
  rw [hlt, hread, if_neg (not_not.mpr (length_rawBlock crc contents)), hbody, hcrc,
    if_neg (fun hbad => hbad.2 rfl), htype, hcontents]
  rfl

end Stored

end LevelDB
