/-
  Write batches as bytes (`db/write_batch.cc`).

  `rep_` is a sequence number (8 bytes), a count (4 bytes) and the operations. `Iterate` calls
  its handler for each operation as soon as it has been read; the count is checked at the end.
  So when it returns an error, the handler has already seen the operations before the bad one
  (`iterate` returns them together with the error).
-/
import LevelDB.Db.MemTable
import LevelDB.Util.Coding

namespace LevelDB

open List

variable {K : Type}

/-! ## The header -/

def kHeader : Nat := 12

/-- `WriteBatchInternal::Sequence`. -/
def batchSequence (rep : Bytes) : Nat := decodeFixed64 rep

/-- `WriteBatchInternal::Count`, an `int`. -/
def batchCount (rep : Bytes) : Int := (decodeFixed32 (rep.drop 8)).toInt32.toInt

/-! ## Iterating -/

section Iterate

variable (keys : KeyCodec K)

/-- One turn of the loop in `Iterate`, after the tag. -/
def getOp (tag : UInt8) (input : Bytes) : Except Status (Op K Bytes × Bytes) :=
  if tag = 1 then do
    let (key, input) ← orError "bad WriteBatch Put" (getLengthPrefixedSlice input)
    let (value, input) ← orError "bad WriteBatch Put" (getLengthPrefixedSlice input)
    return (.put (keys.ofBytes key) value, input)
  else if tag = 0 then do
    let (key, input) ← orError "bad WriteBatch Delete" (getLengthPrefixedSlice input)
    return (.delete (keys.ofBytes key), input)
  else .error (.corruptionErr "unknown WriteBatch tag")

/-- The loop of `Iterate`: the operations that the handler is called with, and the error that
    ends the loop, if any. A turn takes at least the tag. -/
def iterateLoop : Nat → Bytes → List (Op K Bytes) × Option Status
  | turns + 1, tag :: input =>
    match getOp keys tag input with
    | .error s => ([], some s)
    | .ok (op, input) =>
      let rest := iterateLoop turns input
      (op :: rest.1, rest.2)
  | _, _ => ([], none)

/-- `WriteBatch::Iterate`: the operations that the handler is called with, and the error. -/
def iterate (rep : Bytes) : List (Op K Bytes) × Option Status :=
  if rep.length < kHeader then ([], some (.corruptionErr "malformed WriteBatch (too small)"))
  else
    let (ops, error) := iterateLoop keys (rep.drop kHeader).length (rep.drop kHeader)
    match error with
    | some s => (ops, some s)
    | none =>
      if (ops.length : Int) ≠ batchCount rep then
        (ops, some (.corruptionErr "WriteBatch has wrong count"))
      else (ops, none)

omit keys in
theorem iterate_ok {keys : KeyCodec K} {rep : Bytes} (h : (iterate keys rep).2 = none) :
    ¬rep.length < kHeader ∧ batchCount rep = (iterate keys rep).1.length := by
  unfold iterate at h ⊢
  split_ifs at h ⊢ with hshort
  refine ⟨hshort, ?_⟩
  generalize iterateLoop keys (rep.drop kHeader).length (rep.drop kHeader) = result at h ⊢
  obtain ⟨ops, error⟩ := result
  cases error with
  | some s => cases h
  | none =>
    dsimp only at h ⊢
    split_ifs at h ⊢ with hcount
    exact (not_not.mp hcount).symm

/-- What `MemTableInserter` adds, with `sequence_` counted up from `sequence`. The packed
    sequence number keeps 56 bits. -/
def inserted : Nat → List (Op K Bytes) → List (Entry K Bytes)
  | _, [] => []
  | sequence, op :: ops => op.entry (sequence % 2 ^ 56) :: inserted (sequence + 1) ops

/-- `WriteBatchInternal::InsertInto`: the memtable, also when there is an error. -/
def insertInto [LinearOrder K] (rep : Bytes) (mem : MemTable K Bytes) :
    MemTable K Bytes × Option Status :=
  let (ops, error) := iterate keys rep
  (mem.addAll (inserted (batchSequence rep) ops), error)

end Iterate

/-! ## Batches that have been written -/

section Written

variable (keys : KeyCodec K)

/-- What `Put` and `Delete` append to `rep_`. -/
def Op.encode : Op K Bytes → Bytes
  | .put k v => 1 :: (putLengthPrefixedSlice (keys.toBytes k) ++ putLengthPrefixedSlice v)
  | .delete k => 0 :: putLengthPrefixedSlice (keys.toBytes k)

/-- `rep_` of a batch with its sequence number. -/
def WriteBatch.rep (b : WriteBatch K Bytes) : Bytes :=
  encodeFixed64 b.sequence ++ (encodeFixed32 (UInt32.ofNat b.ops.length) ++
    b.ops.flatMap (Op.encode keys))

variable {keys}

theorem getOp_encode {op : Op K Bytes} (hkey : (keys.toBytes op.key).length < 2 ^ 32)
    (hvalue : ∀ v ∈ op.value?, v.length < 2 ^ 32) (rest : Bytes) :
    ∃ tag input, op.encode keys ++ rest = tag :: input ∧ getOp keys tag input = .ok (op, rest) := by
  cases op with
  | put k v =>
    refine ⟨1, putLengthPrefixedSlice (keys.toBytes k) ++ (putLengthPrefixedSlice v ++ rest),
      congrArg _ (append_assoc _ _ _), ?_⟩
    have hk : (keys.toBytes k).length < 2 ^ 32 := hkey
    have hv : v.length < 2 ^ 32 := hvalue v rfl
    simp only [getOp, if_true, getLengthPrefixedSlice_put hk, getLengthPrefixedSlice_put hv,
      orError, bind, Except.bind, keys.ofBytes_toBytes]
    rfl
  | delete k =>
    refine ⟨0, putLengthPrefixedSlice (keys.toBytes k) ++ rest, rfl, ?_⟩
    have hk : (keys.toBytes k).length < 2 ^ 32 := hkey
    rw [getOp, if_neg (by decide), if_pos rfl]
    simp only [getLengthPrefixedSlice_put hk, orError, bind, Except.bind, keys.ofBytes_toBytes]
    rfl

theorem iterateLoop_encode {ops : List (Op K Bytes)}
    (hkeys : ∀ op ∈ ops, (keys.toBytes op.key).length < 2 ^ 32)
    (hvalues : ∀ op ∈ ops, ∀ v ∈ op.value?, v.length < 2 ^ 32) {turns : Nat}
    (hturns : ops.length ≤ turns) :
    iterateLoop keys turns (ops.flatMap (Op.encode keys)) = (ops, none) := by
  induction ops generalizing turns with
  | nil => cases turns <;> rfl
  | cons op ops ih =>
    obtain ⟨turns, rfl⟩ := Nat.exists_eq_succ_of_ne_zero (Nat.ne_zero_of_lt hturns)
    obtain ⟨tag, input, hcons, hget⟩ := getOp_encode (hkeys op mem_cons_self)
      (hvalues op mem_cons_self) (ops.flatMap (Op.encode keys))
    rw [flatMap_cons, hcons, iterateLoop, hget]
    dsimp only
    rw [ih (fun o ho => hkeys o (mem_cons_of_mem op ho))
      (fun o ho => hvalues o (mem_cons_of_mem op ho)) (Nat.le_of_succ_le_succ hturns)]

theorem length_le_length_ops (ops : List (Op K Bytes)) :
    ops.length ≤ (ops.flatMap (Op.encode keys)).length := by
  induction ops with
  | nil => exact Nat.zero_le _
  | cons op ops ih =>
    have hpos : 0 < (op.encode keys).length := by
      cases op <;> exact Nat.succ_pos _
    rw [flatMap_cons, length_append, length_cons]
    omega

section Rep

variable (b : WriteBatch K Bytes)

theorem length_rep : kHeader ≤ (b.rep keys).length := by
  unfold WriteBatch.rep kHeader
  rw [length_append, length_append, length_encodeFixed64, length_encodeFixed32]
  omega

theorem drop_rep : (b.rep keys).drop kHeader = b.ops.flatMap (Op.encode keys) := by
  unfold WriteBatch.rep
  rw [← append_assoc]
  exact drop_left' (by rw [length_append, length_encodeFixed64, length_encodeFixed32]; rfl)

variable {b}

theorem batchCount_written (h : b.ops.length < 2 ^ 31) :
    batchCount (b.rep keys) = b.ops.length := by
  unfold batchCount WriteBatch.rep
  rw [drop_left' (length_encodeFixed64 _), decodeFixed32_encodeFixed32]
  rw [UInt32.toInt32_ofNat', Int32.toInt_ofNat_of_lt h]

theorem iterate_written (hkeys : ∀ op ∈ b.ops, (keys.toBytes op.key).length < 2 ^ 32)
    (hvalues : ∀ op ∈ b.ops, ∀ v ∈ op.value?, v.length < 2 ^ 32) (hcount : b.ops.length < 2 ^ 31) :
    iterate keys (b.rep keys) = (b.ops, none) := by
  unfold iterate
  rw [if_neg (not_lt.mpr (length_rep b)), drop_rep,
    iterateLoop_encode hkeys hvalues (length_le_length_ops b.ops)]
  dsimp only
  rw [batchCount_written hcount, if_neg (not_not.mpr rfl)]

theorem inserted_eq {n : Nat} {ops : List (Op K Bytes)} (h : n + ops.length ≤ 2 ^ 56) :
    inserted n ops = entriesFrom n ops := by
  induction ops generalizing n with
  | nil => rfl
  | cons op ops ih =>
    rw [length_cons] at h
    rw [inserted, entriesFrom, Nat.mod_eq_of_lt (by omega), ih (by omega)]

end Rep

end Written

end LevelDB
