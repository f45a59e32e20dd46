/-
  What `ReadBlock` touches, on any handle (`table/format.h`, `util/std_file_system.cc`).

  A handle comes from the file, and its size may be any 64-bit number. The buffer has `size + 5`
  bytes in `size_t` arithmetic, and what follows indexes it with the size itself. Here a buffer
  that cannot be allocated and a byte outside of it are outcomes of their own.
-/
import LevelDB.Table.Format

namespace LevelDB

open List Option

/-- How a call of `ReadBlock` ends: it returns, it throws `std::bad_alloc`, or it reads outside of
    its buffer. -/
inductive ReadOutcome where
  | returned (result : Except Status Bytes)
  | badAlloc
  | outOfBounds

/-- `pread`: offsets are of type `off_t`. -/
def pread (file : Bytes) (offset n : Nat) : Option Bytes :=
  if offset < 2 ^ 63 then some (readAt file offset n) else none

/-- `count` bytes of a buffer, if they are inside. -/
def slice (buffer : Bytes) (start count : Nat) : Option Bytes :=
  if start + count ≤ buffer.length then some ((buffer.drop start).take count) else none

/-- The check of the checksum in `ReadBlock`, `none` if it reads outside of the buffer. -/
def checksumMatches (crc : Checksum) (contents : Bytes) (n : Nat) : Option Bool := do
  let stored ← slice contents ((n + 1) % 2 ^ 64) 4
  let body ← slice contents 0 ((n + 1) % 2 ^ 64)
  return decide (crc.value body = unmask (decodeFixed32 stored))

/-- `ReadBlock`, where buffers of up to `memory` bytes can be allocated. -/
def tryReadBlock (memory : Nat) (crc : Checksum) (file : Bytes) (verifyChecksums : Bool)
    (handle : BlockHandle) : ReadOutcome :=
  let n := handle.size
  let size := (n + kBlockTrailerSize) % 2 ^ 64
  if memory < size then .badAlloc
  else
    match pread file handle.offset size with
    | none => .returned (.error (.ioError "pread failed: Invalid argument"))
    | some contents =>
      if contents.length ≠ size then .returned (.error (.corruptionErr "truncated block read"))
      else
        match if verifyChecksums then checksumMatches crc contents n else some true with
        | none => .outOfBounds
        | some false => .returned (.error (.corruptionErr "block checksum mismatch"))
        | some true =>
          match slice contents n 1 with
          | some [type] =>
            .returned (match type with
              | 0 => .ok (contents.take n)
              | 1 => .error (.corruptionErr "corrupted snappy compressed block length")
              | 2 => .error (.corruptionErr "corrupted zstd compressed block length")
              | _ => .error (.corruptionErr "bad block type"))
          | _ => .outOfBounds

section Exact

variable {memory : Nat} {crc : Checksum} {file : Bytes} {verifyChecksums : Bool}
  {handle : BlockHandle}

theorem slice_of_le {buffer : Bytes} {start count : Nat} (h : start + count ≤ buffer.length) :
    slice buffer start count = some ((buffer.drop start).take count) := if_pos h

theorem slice_of_lt {buffer : Bytes} {start count : Nat} (h : buffer.length < start + count) :
    slice buffer start count = none := if_neg (not_le.mpr h)

theorem slice_type {contents : Bytes} {n : Nat} (h : n < contents.length) :
    slice contents n 1 = some [contents.getD n 0] := by
  rw [slice_of_le h, drop_eq_getElem_cons h, take_succ_cons, take_zero,
    getD_eq_getElem?_getD, getElem?_eq_getElem h, getD_some]

theorem take_drop_readAt {offset n start count : Nat} (h : start + count ≤ n) :
    ((readAt file offset n).drop start).take count = readAt file (offset + start) count := by
  unfold readAt
  rw [drop_take, drop_drop, take_take, Nat.min_eq_left (by omega)]

theorem tryReadBlock_eq (hsize : handle.size + kBlockTrailerSize < 2 ^ 64)
    (hmemory : handle.size + kBlockTrailerSize ≤ memory) (hoffset : handle.offset < 2 ^ 63) :
    tryReadBlock memory crc file verifyChecksums handle =
      .returned (readBlock crc file verifyChecksums handle) := by
  have hmod : (handle.size + kBlockTrailerSize) % 2 ^ 64 = handle.size + kBlockTrailerSize :=
    Nat.mod_eq_of_lt hsize
  have htrailer : kBlockTrailerSize = 5 := rfl
  unfold tryReadBlock readBlock pread
  dsimp only
  rw [hmod, if_neg (not_lt.mpr hmemory), if_pos hoffset]
  dsimp only
  generalize readAt file handle.offset (handle.size + kBlockTrailerSize) = contents
  by_cases hlen : contents.length = handle.size + kBlockTrailerSize
  · rw [if_neg (not_not.mpr hlen), if_neg (not_not.mpr hlen), slice_type (by omega)]
    have hcheck : checksumMatches crc contents handle.size = some (decide
        (crc.value (contents.take (handle.size + 1)) =
          unmask (decodeFixed32 (contents.drop (handle.size + 1))))) := by
      unfold checksumMatches
      rw [Nat.mod_eq_of_lt (by omega), slice_of_le (by omega), slice_of_le (by omega)]
      have hall : (contents.drop (handle.size + 1)).take 4 = contents.drop (handle.size + 1) :=
        take_of_length_le (by rw [length_drop]; omega)
      rw [hall]
      rfl
    by_cases hbad : verifyChecksums = true ∧ crc.value (contents.take (handle.size + 1)) ≠
        unmask (decodeFixed32 (contents.drop (handle.size + 1)))
    · rw [if_pos hbad, hbad.1, if_pos rfl, hcheck, decide_eq_false hbad.2]
    · have hmatches : (if verifyChecksums = true then checksumMatches crc contents handle.size
          else some true) = some true := by
        split_ifs with hverify
        · rw [hcheck, decide_eq_true (not_not.mp fun hne => hbad ⟨hverify, hne⟩)]
        · rfl
      rewrite [if_neg hbad, hmatches]
      rfl
  · rw [if_pos hlen, if_pos hlen]

/-- An error or the bytes of the block are returned. With `verifyChecksums` the stored checksum is
    that of the bytes and their type. -/
def ExactRead (crc : Checksum) (file : Bytes) (verifyChecksums : Bool) (handle : BlockHandle)
    (outcome : ReadOutcome) : Prop :=
  ∃ result, outcome = .returned result ∧ ∀ b, result = .ok b →
    b = readAt file handle.offset handle.size ∧ b.length = handle.size ∧
      readAt file (handle.offset + handle.size) 1 = [0] ∧
      (verifyChecksums = true → crc.value (b ++ [0]) =
        unmask (decodeFixed32 (readAt file (handle.offset + handle.size + 1) 4)))

theorem readBlock_ok {b : Bytes} (hsize : handle.size + kBlockTrailerSize < 2 ^ 64)
    (h : readBlock crc file verifyChecksums handle = .ok b) :
    b = readAt file handle.offset handle.size ∧ b.length = handle.size ∧
      readAt file (handle.offset + handle.size) 1 = [0] ∧
      (verifyChecksums = true → crc.value (b ++ [0]) =
        unmask (decodeFixed32 (readAt file (handle.offset + handle.size + 1) 4))) := by
  have htrailer : kBlockTrailerSize = 5 := rfl
  unfold readBlock at h
  dsimp only at h
  rw [Nat.mod_eq_of_lt hsize] at h
  split_ifs at h with hlen hbad
  rw [not_not] at hlen
  have hpart : ∀ {start count}, start + count ≤ handle.size + kBlockTrailerSize →
      ((readAt file handle.offset (handle.size + kBlockTrailerSize)).drop start).take count =
        readAt file (handle.offset + start) count := take_drop_readAt
  generalize readAt file handle.offset (handle.size + kBlockTrailerSize) = contents at *
  have htype : contents.getD handle.size 0 = 0 ∧ contents.take handle.size = b := by
    split at h
    · exact ⟨by assumption, Except.ok.inj h⟩
    · cases h
    · cases h
    · cases h
  obtain ⟨hzero, rfl⟩ := htype
  have hbody : contents.take (handle.size + 1) = contents.take handle.size ++ [0] := by
    rw [take_succ_eq_append_getElem (by omega), ← hzero, getD_eq_getElem?_getD,
      getElem?_eq_getElem (by omega), getD_some]
  refine ⟨?_, by rw [length_take]; omega, ?_, ?_⟩
  · have hfirst := @hpart 0 handle.size (by omega)
    rwa [drop_zero] at hfirst
  · rw [← hpart (by omega), drop_eq_getElem_cons (by omega), take_succ_cons,
      take_zero, ← hzero, getD_eq_getElem?_getD, getElem?_eq_getElem (by omega),
      getD_some]
  · intro hverify
    have hall : (contents.drop (handle.size + 1)).take 4 = contents.drop (handle.size + 1) :=
      take_of_length_le (by rw [length_drop]; omega)
    rw [← hbody, Nat.add_assoc, ← hpart (by omega), hall]
    by_contra hne
    exact hbad ⟨hverify, hne⟩

/-- The sum wraps, and the check of the checksum fails although it reads the buffer only: with the
    largest size the four bytes of the buffer are the checksum of no bytes at all. -/
def MismatchesEmpty (crc : Checksum) (file : Bytes) (verifyChecksums : Bool) (handle : BlockHandle) :
    Prop :=
  verifyChecksums = true ∧ handle.size = 2 ^ 64 - 1 ∧
    crc.value [] ≠ unmask (decodeFixed32 (readAt file handle.offset 4))

theorem exactRead_error {status : Status} :
    ExactRead crc file verifyChecksums handle (.returned (.error status)) := by
  refine ⟨_, rfl, fun b hb => ?_⟩
  cases hb

theorem not_exactRead_outOfBounds : ¬ExactRead crc file verifyChecksums handle .outOfBounds := by
  rintro ⟨result, hresult, -⟩
  cases hresult

theorem check_wrapped (crc : Checksum) {contents : Bytes} (hsize : handle.size < 2 ^ 64)
    (hwrap : 2 ^ 64 ≤ handle.size + kBlockTrailerSize)
    (hlen : contents.length = (handle.size + kBlockTrailerSize) % 2 ^ 64) :
    checksumMatches crc contents handle.size =
      if handle.size = 2 ^ 64 - 1 then
        some (decide (crc.value [] = unmask (decodeFixed32 contents)))
      else none := by
  have htrailer : kBlockTrailerSize = 5 := rfl
  unfold checksumMatches
  by_cases hlast : handle.size = 2 ^ 64 - 1
  · have hfour : contents.length = 4 := by omega
    have hzero : (handle.size + 1) % 2 ^ 64 = 0 := by omega
    rw [if_pos hlast, hzero, slice_of_le (by omega), slice_of_le (by omega), drop_zero,
      take_of_length_le hfour.le, take_zero]
    rfl
  · rw [if_neg hlast, slice_of_lt (by omega)]
    rfl

theorem exactRead_wrapped (hsize : handle.size < 2 ^ 64)
    (hwrap : 2 ^ 64 ≤ handle.size + kBlockTrailerSize)
    (hmemory : (handle.size + kBlockTrailerSize) % 2 ^ 64 ≤ memory) :
    ExactRead crc file verifyChecksums handle
        (tryReadBlock memory crc file verifyChecksums handle) ↔
      2 ^ 63 ≤ handle.offset ∨
      (readAt file handle.offset ((handle.size + kBlockTrailerSize) % 2 ^ 64)).length ≠
        (handle.size + kBlockTrailerSize) % 2 ^ 64 ∨
      MismatchesEmpty crc file verifyChecksums handle := by
  have htrailer : kBlockTrailerSize = 5 := rfl
  have hmod : (handle.size + kBlockTrailerSize) % 2 ^ 64 = handle.size + 5 - 2 ^ 64 := by omega
  unfold tryReadBlock pread
  dsimp only
  rw [if_neg (not_lt.mpr hmemory)]
  by_cases hoffset : handle.offset < 2 ^ 63
  · rw [if_pos hoffset, or_iff_right (not_le.mpr hoffset)]
    dsimp only
    by_cases hlen : (readAt file handle.offset ((handle.size + kBlockTrailerSize) % 2 ^ 64)).length =
        (handle.size + kBlockTrailerSize) % 2 ^ 64
    · rw [if_neg (not_not.mpr hlen), or_iff_right (not_not.mpr hlen),
        slice_of_lt (by rw [hlen]; omega)]
      have hcheck := check_wrapped crc hsize hwrap hlen
      unfold MismatchesEmpty
      cases verifyChecksums with
      | false => exact iff_of_false not_exactRead_outOfBounds fun h => Bool.false_ne_true h.1
      | true =>
        rw [if_pos rfl, hcheck]
        by_cases hlast : handle.size = 2 ^ 64 - 1
        · have hfour : (handle.size + kBlockTrailerSize) % 2 ^ 64 = 4 := by omega
          rw [if_pos hlast, hfour]
          by_cases heq : crc.value [] = unmask (decodeFixed32 (readAt file handle.offset 4))
          · rw [decide_eq_true heq]
            exact iff_of_false not_exactRead_outOfBounds fun h => h.2.2 heq
          · rw [decide_eq_false heq]
            exact iff_of_true exactRead_error ⟨rfl, hlast, heq⟩
        · rw [if_neg hlast]
          exact iff_of_false not_exactRead_outOfBounds fun h => hlast h.2.1
    · rw [if_pos hlen]
      exact iff_of_true exactRead_error (.inl hlen)
  · rw [if_neg hoffset]
    exact iff_of_true exactRead_error (.inl (not_lt.mp hoffset))

/-- **`ReadBlock`** returns an error or exactly the bytes of the block, without a look outside of
    its buffer, if and only if the buffer can be allocated and either its size does not wrap or the
    call ends before the size is used as an index. -/
theorem readBlock_exact_iff (memory : Nat) (crc : Checksum) (file : Bytes) (verifyChecksums : Bool)
    (handle : BlockHandle) (hsize : handle.size < 2 ^ 64) :
    ExactRead crc file verifyChecksums handle
        (tryReadBlock memory crc file verifyChecksums handle) ↔
      (handle.size + kBlockTrailerSize) % 2 ^ 64 ≤ memory ∧
      (handle.size + kBlockTrailerSize < 2 ^ 64 ∨ 2 ^ 63 ≤ handle.offset ∨
        (readAt file handle.offset ((handle.size + kBlockTrailerSize) % 2 ^ 64)).length ≠
          (handle.size + kBlockTrailerSize) % 2 ^ 64 ∨
        MismatchesEmpty crc file verifyChecksums handle) := by
  by_cases hmemory : (handle.size + kBlockTrailerSize) % 2 ^ 64 ≤ memory
  · rw [and_iff_right hmemory]
    by_cases hfits : handle.size + kBlockTrailerSize < 2 ^ 64
    · refine iff_of_true ?_ (.inl hfits)
      by_cases hoffset : handle.offset < 2 ^ 63
      · rw [Nat.mod_eq_of_lt hfits] at hmemory
        rw [tryReadBlock_eq hfits hmemory hoffset]
        exact ⟨_, rfl, fun b hb => readBlock_ok hfits hb⟩
      · unfold tryReadBlock pread
        dsimp only
        rw [if_neg (not_lt.mpr hmemory), if_neg hoffset]
        exact exactRead_error
    · rw [or_iff_right hfits]
      exact exactRead_wrapped hsize (not_lt.mp hfits) hmemory
  · refine iff_of_false ?_ fun h => hmemory h.1
    unfold tryReadBlock
    dsimp only
    rw [if_pos (not_le.mp hmemory)]
    rintro ⟨result, hresult, -⟩
    cases hresult

theorem readBlock_exact_stored :
    ExactRead crc32c ([7] ++ rawBlock crc32c [1, 2, 3]) true ⟨1, 3⟩
      (tryReadBlock 4096 crc32c ([7] ++ rawBlock crc32c [1, 2, 3]) true ⟨1, 3⟩) :=
  (readBlock_exact_iff 4096 crc32c ([7] ++ rawBlock crc32c [1, 2, 3]) true ⟨1, 3⟩
    (by decide)).mpr ⟨by decide, .inl (by decide)⟩

/-- The size wraps to an empty buffer, and the type of the block is read in front of it. -/
theorem readBlock_out_of_bounds :
    tryReadBlock 4096 crc32c [1, 2, 3] false ⟨0, 2 ^ 64 - 5⟩ = .outOfBounds ∧
      ¬ExactRead crc32c [1, 2, 3] false ⟨0, 2 ^ 64 - 5⟩
        (tryReadBlock 4096 crc32c [1, 2, 3] false ⟨0, 2 ^ 64 - 5⟩) := by
  have hread : tryReadBlock 4096 crc32c [1, 2, 3] false ⟨0, 2 ^ 64 - 5⟩ = .outOfBounds := by
    rfl
  refine ⟨hread, ?_⟩
  rw [hread]
  exact not_exactRead_outOfBounds

end Exact

end LevelDB
