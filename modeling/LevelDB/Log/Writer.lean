/-
  The format of log files and their writer (`db/log_format.h`, `db/log_writer.h`).

  The writer keeps its offset in the block. What it writes depends on the position in the file
  only (`addRecords_eq`), so that writers can follow each other on one file
  (`writeSessions_eq`). `Laid` says where the physical records of a file lie.
-/
import LevelDB.Util.Crc32cStrides

namespace LevelDB.Log

open List

/-! ## The format -/

/-- `enum class RecordType`. -/
inductive RecordType where
  | zero
  | full
  | first
  | middle
  | last
  deriving DecidableEq, Repr

def RecordType.toByte : RecordType → UInt8
  | .zero => 0
  | .full => 1
  | .first => 2
  | .middle => 3
  | .last => 4

def kBlockSize : Nat := 32768

def kHeaderSize : Nat := 4 + 2 + 1

/-! ## The checksums of the types -/

def kMaxRecordType : Nat := 4

/-- `ComputeTypeCrcs`, with the byte of the type at `address`. -/
def computeTypeCrcs (address : Nat) : List UInt32 :=
  (List.range (kMaxRecordType + 1)).map fun i => Crc32c.extend address 0 [UInt8.ofNat i]

theorem getD_computeTypeCrcs (address : Nat) (t : RecordType) :
    (computeTypeCrcs address).getD t.toByte.toNat 0 = crc32c.value [t.toByte] := by
  unfold computeTypeCrcs Checksum.value
  rw [← Crc32c.extend_eq address]
  cases t <;> rfl

/-- **The strided checksum.** From any address, the software path of `Extend` is CRC-32C, so it can
    be continued, and the writer's checksum of a physical record is the reader's. -/
theorem software_extend :
    (∀ address crc data, Crc32c.extend address crc data = crc32c.extend crc data) ∧
    (∀ first second whole crc a b, Crc32c.extend second (Crc32c.extend first crc a) b =
      Crc32c.extend whole crc (a ++ b)) ∧
    ∀ types address whole (t : RecordType) payload,
      Crc32c.extend address ((computeTypeCrcs types).getD t.toByte.toNat 0) payload =
        Crc32c.extend whole 0 (t.toByte :: payload) := by
  refine ⟨Crc32c.extend_eq, ?_, ?_⟩
  · grind [Crc32c.extend_eq, crc32c.extend_append, crc32c]
  · intro types address whole t payload
    rw [getD_computeTypeCrcs, Crc32c.extend_eq, Crc32c.extend_eq]
    exact (crc32c.extend_append 0 [t.toByte] payload).symm

/-! ## The writer -/

/-- The bytes of `EmitPhysicalRecord`. -/
def emitPhysicalRecord (crc : Checksum) (t : RecordType) (payload : Bytes) : Bytes :=
  encodeFixed32 (mask (crc.extend (crc.value [t.toByte]) payload)) ++
    [UInt8.ofNat (payload.length &&& 0xff), UInt8.ofNat (payload.length >>> 8), t.toByte] ++ payload

def fragmentType (begins ends : Bool) : RecordType :=
  if begins && ends then .full else if begins then .first else if ends then .last else .middle

/-- The loop of `AddRecord`, with what is left of the record and `block_offset_`: the bytes that
    are appended, and the offset in the end. Every turn but the first writes a byte of the
    record, so that `left.length + 1` turns are enough. -/
def addRecordLoop (crc : Checksum) : Nat → Bool → Bytes → Nat → Bytes × Nat
  | 0, _, _, blockOffset => ([], blockOffset)
  | turns + 1, begins, left, blockOffset =>
    let leftover := kBlockSize - blockOffset
    let trailer := if leftover < kHeaderSize then List.replicate leftover 0 else []
    let blockOffset := if leftover < kHeaderSize then 0 else blockOffset
    let avail := kBlockSize - blockOffset - kHeaderSize
    let fragmentLength := if left.length < avail then left.length else avail
    let ends := left.length == fragmentLength
    let written := trailer ++
      emitPhysicalRecord crc (fragmentType begins ends) (left.take fragmentLength)
    let blockOffset := blockOffset + kHeaderSize + fragmentLength
    if left.length - fragmentLength = 0 then (written, blockOffset)
    else
      let rest := addRecordLoop crc turns false (left.drop fragmentLength) blockOffset
      (written ++ rest.1, rest.2)

def addRecord (crc : Checksum) (blockOffset : Nat) (record : Bytes) : Bytes × Nat :=
  addRecordLoop crc (record.length + 1) true record blockOffset

/-- The records of one `Writer` that starts at `block_offset_`. -/
def addRecords (crc : Checksum) : Nat → List Bytes → Bytes
  | _, [] => []
  | blockOffset, record :: records =>
    let written := addRecord crc blockOffset record
    written.1 ++ addRecords crc written.2 records

/-- Writers that follow each other on a file, each constructed with the length of the file. -/
def writeSessions (crc : Checksum) : Bytes → List (List Bytes) → Bytes
  | dest, [] => dest
  | dest, records :: sessions =>
    writeSessions crc (dest ++ addRecords crc (dest.length % kBlockSize) records) sessions

/-! ## Where fragments lie -/

theorem kHeaderSize_lt : kHeaderSize < kBlockSize := by decide

structure Fragment where
  type : RecordType
  payload : Bytes

/-- The zeros that are written at `pos` before the next header. -/
def padAt (pos : Nat) : Nat :=
  if kBlockSize - pos % kBlockSize < kHeaderSize then kBlockSize - pos % kBlockSize else 0

/-- Where a fragment starts that is written at `pos`. -/
def startAt (pos : Nat) : Nat := pos + padAt pos

/-- Where a fragment ends that is written at `pos`. -/
def Fragment.stop (f : Fragment) (pos : Nat) : Nat := startAt pos + kHeaderSize + f.payload.length

/-- The end of fragments that are written from `pos` on. -/
def stop : Nat → List Fragment → Nat
  | pos, [] => pos
  | pos, f :: fs => stop (f.stop pos) fs

/-- The bytes of fragments that are written from `pos` on. -/
def laidBytes (crc : Checksum) : Nat → List Fragment → Bytes
  | _, [] => []
  | pos, f :: fs => List.replicate (padAt pos) 0 ++
      (emitPhysicalRecord crc f.type f.payload ++ laidBytes crc (f.stop pos) fs)

def Laid : Nat → List Fragment → Prop
  | _, [] => True
  | pos, f :: fs => startAt pos % kBlockSize + kHeaderSize + f.payload.length ≤ kBlockSize ∧
      Laid (f.stop pos) fs

/-- The fragments spell the record: in order, the first one and the last one marked. -/
inductive Spells : Bool → List Fragment → Bytes → Prop where
  | ends (begins : Bool) (payload : Bytes) :
      Spells begins [⟨fragmentType begins true, payload⟩] payload
  | goesOn (begins : Bool) (payload : Bytes) {fs : List Fragment} {rest : Bytes}
      (h : Spells false fs rest) :
      Spells begins (⟨fragmentType begins false, payload⟩ :: fs) (payload ++ rest)

@[simp] theorem length_emitPhysicalRecord (crc : Checksum) (t : RecordType) (payload : Bytes) :
    (emitPhysicalRecord crc t payload).length = kHeaderSize + payload.length := by
  simp [emitPhysicalRecord, kHeaderSize]
  omega

theorem stop_append (pos : Nat) (fs gs : List Fragment) :
    stop pos (fs ++ gs) = stop (stop pos fs) gs := by
  induction fs generalizing pos with
  | nil => rfl
  | cons f fs ih => exact ih _

theorem laidBytes_append (crc : Checksum) (pos : Nat) (fs gs : List Fragment) :
    laidBytes crc pos (fs ++ gs) = laidBytes crc pos fs ++ laidBytes crc (stop pos fs) gs := by
  induction fs generalizing pos with
  | nil => rfl
  | cons f fs ih =>
    rw [cons_append, laidBytes, laidBytes, ih, append_assoc, append_assoc]
    rfl

theorem laid_append (pos : Nat) (fs gs : List Fragment) :
    Laid pos (fs ++ gs) ↔ Laid pos fs ∧ Laid (stop pos fs) gs := by
  induction fs generalizing pos with
  | nil => simp [Laid, stop]
  | cons f fs ih =>
    rw [cons_append, Laid, Laid, ih, and_assoc]
    rfl

theorem pos_add_length_laidBytes (crc : Checksum) (pos : Nat) (fs : List Fragment) :
    pos + (laidBytes crc pos fs).length = stop pos fs := by
  induction fs generalizing pos with
  | nil => rfl
  | cons f fs ih =>
    rw [stop, ← ih, laidBytes]
    simp only [length_append, length_replicate, length_emitPhysicalRecord,
      Fragment.stop, startAt]
    omega

theorem startAt_mod (pos : Nat) : startAt pos % kBlockSize =
    if kBlockSize - pos % kBlockSize < kHeaderSize then 0 else pos % kBlockSize := by
  unfold startAt padAt
  by_cases h : kBlockSize - pos % kBlockSize < kHeaderSize
  · rw [if_pos h, if_pos h]
    unfold kBlockSize
    omega
  · rw [if_neg h, if_neg h]
    rfl

theorem startAt_room (pos : Nat) : startAt pos % kBlockSize + kHeaderSize ≤ kBlockSize := by
  rw [startAt_mod]
  by_cases h : kBlockSize - pos % kBlockSize < kHeaderSize
  · rw [if_pos h]
    decide
  · rw [if_neg h]
    unfold kBlockSize kHeaderSize at *
    omega

/-! ## The fragments of a record -/

/-- The loop of `AddRecord` at a position of the file. -/
def fragmentsLoop : Nat → Bool → Bytes → Nat → List Fragment
  | 0, _, _, _ => []
  | turns + 1, begins, left, pos =>
    let avail := kBlockSize - startAt pos % kBlockSize - kHeaderSize
    let fragmentLength := if left.length < avail then left.length else avail
    let f : Fragment :=
      ⟨fragmentType begins (left.length == fragmentLength), left.take fragmentLength⟩
    f :: if left.length - fragmentLength = 0 then []
      else fragmentsLoop turns false (left.drop fragmentLength) (f.stop pos)

/-- The fragments of a record that is written at `pos`. -/
def fragmentsOf (pos : Nat) (record : Bytes) : List Fragment :=
  fragmentsLoop (record.length + 1) true record pos

variable {blockOffset pos : Nat}

/-- `block_offset_` and a position of the file: at the end of a block the writer may stand at
    `kBlockSize`. -/
def OffsetAt (blockOffset pos : Nat) : Prop :=
  blockOffset ≤ kBlockSize ∧ blockOffset % kBlockSize = pos % kBlockSize

theorem OffsetAt.eq_or (h : OffsetAt blockOffset pos) :
    blockOffset = pos % kBlockSize ∨ blockOffset = kBlockSize ∧ pos % kBlockSize = 0 := by
  obtain ⟨hle, hmod⟩ := h
  unfold kBlockSize at *
  omega

theorem OffsetAt.trailer (h : OffsetAt blockOffset pos) :
    (if kBlockSize - blockOffset < kHeaderSize then
      List.replicate (kBlockSize - blockOffset) (0 : UInt8) else []) =
      List.replicate (padAt pos) 0 := by
  unfold padAt
  obtain rfl | ⟨rfl, hpos⟩ := h.eq_or
  · grind
  · rw [hpos]
    rfl

theorem OffsetAt.start (h : OffsetAt blockOffset pos) :
    (if kBlockSize - blockOffset < kHeaderSize then 0 else blockOffset) =
      startAt pos % kBlockSize := by
  rw [startAt_mod]
  obtain rfl | ⟨rfl, hpos⟩ := h.eq_or
  · rfl
  · rw [hpos]
    rfl

theorem addRecordLoop_eq (crc : Checksum) (turns : Nat) (begins : Bool) (left : Bytes)
    (h : OffsetAt blockOffset pos) :
    (addRecordLoop crc turns begins left blockOffset).1 =
        laidBytes crc pos (fragmentsLoop turns begins left pos) ∧
      OffsetAt (addRecordLoop crc turns begins left blockOffset).2
        (stop pos (fragmentsLoop turns begins left pos)) := by
  induction turns generalizing begins left blockOffset pos with
  | zero => exact ⟨rfl, h⟩
  | succ turns ih =>
    unfold addRecordLoop fragmentsLoop
    dsimp only
    rw [h.trailer, h.start]
    generalize hn : (if left.length < kBlockSize - startAt pos % kBlockSize - kHeaderSize then
      left.length else kBlockSize - startAt pos % kBlockSize - kHeaderSize) = n
    have hle : n ≤ left.length ∧ startAt pos % kBlockSize + kHeaderSize + n ≤ kBlockSize := by
      have := startAt_room pos
      split_ifs at hn
      · omega
      · omega
    obtain ⟨f, hf⟩ : ∃ f : Fragment, f = ⟨fragmentType begins (left.length == n), left.take n⟩ :=
      ⟨_, rfl⟩
    have hstop : f.stop pos = startAt pos + kHeaderSize + n := by
      rw [hf, Fragment.stop, length_take, Nat.min_eq_left hle.1]
    have hnext : OffsetAt (startAt pos % kBlockSize + kHeaderSize + n) (f.stop pos) := by
      refine ⟨hle.2, ?_⟩
      rw [hstop]
      unfold kBlockSize
      omega
    rw [← hf]
    split_ifs
    · refine ⟨?_, hnext⟩
      rw [laidBytes, laidBytes, append_nil, hf]
    · obtain ⟨hbytes, hoff⟩ := ih false (left.drop n) hnext
      refine ⟨?_, hoff⟩
      rw [laidBytes, ← hbytes, append_assoc, hf]

theorem fragmentsLoop_spec {turns : Nat} {begins : Bool} {left : Bytes}
    (h : left.length < turns ∨ pos % kBlockSize = 0 ∧ left.length ≤ turns ∧ 0 < turns) :
    Spells begins (fragmentsLoop turns begins left pos) left ∧
      Laid pos (fragmentsLoop turns begins left pos) := by
  induction turns generalizing begins left pos with
  | zero => omega
  | succ turns ih =>
    unfold fragmentsLoop
    dsimp only
    have hroom := startAt_room pos
    generalize hn : (if left.length < kBlockSize - startAt pos % kBlockSize - kHeaderSize then
      left.length else kBlockSize - startAt pos % kBlockSize - kHeaderSize) = n
    have hle : n ≤ left.length := by
      split_ifs at hn
      · omega
      · omega
    have hlen : (left.take n).length = n := by
      rw [length_take, Nat.min_eq_left hle]
    have hfits : startAt pos % kBlockSize + kHeaderSize + (left.take n).length ≤ kBlockSize := by
      rw [hlen]
      split_ifs at hn
      · omega
      · omega
    split_ifs with hend
    · have hall : n = left.length := by omega
      rw [hlen, hall] at hfits
      rw [hall, beq_self_eq_true, take_length]
      exact ⟨.ends begins left, hfits, trivial⟩
    · have hne : (left.length == n) = false := beq_false_of_ne (by omega)
      have hfull : n = kBlockSize - startAt pos % kBlockSize - kHeaderSize := by
        split_ifs at hn
        · omega
        · exact hn.symm
      -- the block is full
      have hzero : (Fragment.stop ⟨fragmentType begins false, left.take n⟩ pos) % kBlockSize = 0 := by
        rw [Fragment.stop, hlen, hfull]
        unfold kBlockSize at *
        omega
      have hturns : left.length - n ≤ turns ∧ 0 < turns := by
        obtain h | ⟨h0, h, -⟩ := h
        · omega
        · have : startAt pos % kBlockSize = 0 := by
            rw [startAt_mod, h0]
            rfl
          unfold kBlockSize kHeaderSize at *
          omega
      rw [hne]
      rw [← length_drop] at hturns
      obtain ⟨hspells, hlaid⟩ : Spells false (fragmentsLoop turns false (left.drop n) _) _ ∧ _ :=
        ih (Or.inr ⟨hzero, hturns⟩)
      refine ⟨?_, hfits, hlaid⟩
      have hgo := Spells.goesOn begins (left.take n) hspells
      rw [List.take_append_drop] at hgo
      exact hgo

theorem fragmentsOf_spec (pos : Nat) (record : Bytes) :
    Spells true (fragmentsOf pos record) record ∧ Laid pos (fragmentsOf pos record) :=
  fragmentsLoop_spec (Or.inl (Nat.lt_succ_self _))

/-! ## Files -/

/-- The fragments of records that are written from `pos` on, record by record. -/
def layout : Nat → List Bytes → List (List Fragment)
  | _, [] => []
  | pos, record :: records =>
    fragmentsOf pos record :: layout (stop pos (fragmentsOf pos record)) records

def endOf (pos : Nat) (records : List Bytes) : Nat := stop pos (layout pos records).flatten

theorem layout_append (pos : Nat) (xs ys : List Bytes) :
    layout pos (xs ++ ys) = layout pos xs ++ layout (endOf pos xs) ys := by
  induction xs generalizing pos with
  | nil => rfl
  | cons x xs ih =>
    rw [cons_append, layout, ih, layout, cons_append]
    unfold endOf
    rw [layout, flatten_cons, stop_append]

theorem laid_layout (pos : Nat) (records : List Bytes) : Laid pos (layout pos records).flatten := by
  induction records generalizing pos with
  | nil => trivial
  | cons record records ih =>
    rw [layout, flatten_cons, laid_append]
    exact ⟨(fragmentsOf_spec pos record).2, ih _⟩

theorem addRecords_eq (crc : Checksum) (records : List Bytes) (h : OffsetAt blockOffset pos) :
    addRecords crc blockOffset records = laidBytes crc pos (layout pos records).flatten := by
  induction records generalizing blockOffset pos with
  | nil => rfl
  | cons record records ih =>
    obtain ⟨hbytes, hoff⟩ := addRecordLoop_eq crc (record.length + 1) true record h
    rw [addRecords, layout, flatten_cons, laidBytes_append, addRecord, hbytes, ih hoff]
    rfl

theorem writeSessions_eq (crc : Checksum) (sessions : List (List Bytes)) (dest : Bytes) :
    writeSessions crc dest sessions =
      dest ++ laidBytes crc dest.length (layout dest.length sessions.flatten).flatten := by
  induction sessions generalizing dest with
  | nil => simp [writeSessions, layout, laidBytes]
  | cons records sessions ih =>
    have hoff : OffsetAt (dest.length % kBlockSize) dest.length :=
      ⟨(Nat.mod_lt _ (by decide)).le, Nat.mod_mod _ _⟩
    rw [writeSessions, ih, addRecords_eq crc records hoff, flatten_cons, layout_append,
      flatten_append, laidBytes_append, append_assoc, length_append,
      pos_add_length_laidBytes]
    rfl

def logFile (crc : Checksum) (records : List Bytes) : Bytes :=
  laidBytes crc 0 (layout 0 records).flatten

theorem writeSessions_nil (crc : Checksum) (sessions : List (List Bytes)) :
    writeSessions crc [] sessions = logFile crc sessions.flatten :=
  writeSessions_eq crc sessions []

theorem length_logFile (crc : Checksum) (records : List Bytes) :
    (logFile crc records).length = endOf 0 records := by
  rw [endOf, ← pos_add_length_laidBytes crc, Nat.zero_add]
  rfl

end LevelDB.Log
