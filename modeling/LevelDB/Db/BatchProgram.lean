/-
  Building write batches (`db/write_batch.cc`).

  A program works on any number of batches, each of them one string of bytes: `Put`, `Delete` and
  `Append` change the count in its header and append to it. The source of `Append` may be its
  target.
-/
import LevelDB.Db.BatchCodec

namespace LevelDB

open List Function

/-! ## The calls on the bytes -/

/-- `WriteBatch::Clear`. -/
def clearBatch : Bytes := List.replicate kHeader 0

/-- `WriteBatchInternal::SetCount`. -/
def setBatchCount (rep : Bytes) (n : Int) : Bytes :=
  rep.take 8 ++ (encodeFixed32 (Int32.ofInt n).toUInt32 ++ rep.drop kHeader)

/-- `WriteBatchInternal::SetSequence`. -/
def setBatchSequence (rep : Bytes) (s : Nat) : Bytes := encodeFixed64 s ++ rep.drop 8

def addToBatch (rep : Bytes) (tag : UInt8) (strings : Bytes) : Bytes :=
  setBatchCount rep (batchCount rep + 1) ++ tag :: strings

/-- `WriteBatch::Put`. -/
def putInBatch (rep key value : Bytes) : Bytes :=
  addToBatch rep 1 (putLengthPrefixedSlice key ++ putLengthPrefixedSlice value)

/-- `WriteBatch::Delete`. -/
def deleteInBatch (rep key : Bytes) : Bytes := addToBatch rep 0 (putLengthPrefixedSlice key)

/-- A call, on batches by their numbers. `setContents` copies by way of `Contents`. -/
inductive BatchCall where
  | put (b : Nat) (key value : Bytes)
  | delete (b : Nat) (key : Bytes)
  | clear (b : Nat)
  | append (dst src : Nat)
  | setSequence (b : Nat) (s : Nat)
  | setContents (b src : Nat)
  deriving DecidableEq, Repr

/-- A call on the strings of the batches. `Append` sets the count before it reads its source. -/
def BatchCall.runBytes (reps : Nat → Bytes) : BatchCall → Nat → Bytes
  | .put b key value => Function.update reps b (putInBatch (reps b) key value)
  | .delete b key => Function.update reps b (deleteInBatch (reps b) key)
  | .clear b => Function.update reps b clearBatch
  | .append dst src =>
    let reps := Function.update reps dst
      (setBatchCount (reps dst) (batchCount (reps dst) + batchCount (reps src)))
    Function.update reps dst (reps dst ++ (reps src).drop kHeader)
  | .setSequence b s => Function.update reps b (setBatchSequence (reps b) s)
  | .setContents b src => Function.update reps b (reps src)

def runBatches (program : List BatchCall) : Nat → Bytes :=
  program.foldl BatchCall.runBytes fun _ => clearBatch

/-! ## What the calls mean -/

def BatchCall.runOps (batches : Nat → WriteBatch Bytes Bytes) :
    BatchCall → Nat → WriteBatch Bytes Bytes
  | .put b key value =>
    Function.update batches b { batches b with ops := (batches b).ops ++ [.put key value] }
  | .delete b key =>
    Function.update batches b { batches b with ops := (batches b).ops ++ [.delete key] }
  | .clear b => Function.update batches b ⟨0, []⟩
  | .append dst src =>
    Function.update batches dst { batches dst with ops := (batches dst).ops ++ (batches src).ops }
  | .setSequence b s => Function.update batches b { batches b with sequence := s }
  | .setContents b src => Function.update batches b (batches src)

def batchesOf (program : List BatchCall) : Nat → WriteBatch Bytes Bytes :=
  program.foldl BatchCall.runOps fun _ => ⟨0, []⟩

/-- The strings of a call are shorter than 4 GiB, and its sequence number has 64 bits. -/
def BatchCall.Fits : BatchCall → Prop
  | .put _ key value => key.length < 2 ^ 32 ∧ value.length < 2 ^ 32
  | .delete _ key => key.length < 2 ^ 32
  | .setSequence _ s => s < 2 ^ 64
  | _ => True

/-! ## The bytes are those of the batches -/

section Rep

variable (b : WriteBatch Bytes Bytes)

theorem batchCount_eq : batchCount (b.rep .bytes) = (Int32.ofNat b.ops.length).toInt := by
  unfold batchCount WriteBatch.rep
  rw [drop_left' (length_encodeFixed64 _), decodeFixed32_encodeFixed32, UInt32.toInt32_ofNat']

theorem setBatchCount_rep {m : Int} {more : List (Op Bytes Bytes)}
    (h : Int32.ofInt m = Int32.ofNat more.length) :
    setBatchCount (b.rep .bytes) (batchCount (b.rep .bytes) + m) ++
        more.flatMap (Op.encode .bytes) =
      ({ b with ops := b.ops ++ more } : WriteBatch Bytes Bytes).rep .bytes := by
  have hcount : (Int32.ofInt (batchCount (b.rep .bytes) + m)).toUInt32 =
      UInt32.ofNat (b.ops ++ more).length := by
    rw [batchCount_eq, Int32.ofInt_add, Int32.ofInt_toInt, h, ← Int32.ofNat_add,
      length_append, Int32.toUInt32_ofNat']
  unfold setBatchCount
  rw [drop_rep, hcount]
  unfold WriteBatch.rep
  rw [take_left' (length_encodeFixed64 _), flatMap_append]
  simp only [append_assoc]

theorem addToBatch_rep (op : Op Bytes Bytes) {tag : UInt8} {strings : Bytes}
    (h : op.encode .bytes = tag :: strings) :
    addToBatch (b.rep .bytes) tag strings =
      ({ b with ops := b.ops ++ [op] } : WriteBatch Bytes Bytes).rep .bytes := by
  have hrep := setBatchCount_rep b (show Int32.ofInt 1 = Int32.ofNat [op].length from rfl)
  rw [flatMap_singleton, h] at hrep
  exact hrep

theorem appended_rep (src : WriteBatch Bytes Bytes) :
    setBatchCount (b.rep .bytes) (batchCount (b.rep .bytes) + batchCount (src.rep .bytes)) ++
        (src.rep .bytes).drop kHeader =
      ({ b with ops := b.ops ++ src.ops } : WriteBatch Bytes Bytes).rep .bytes := by
  rw [drop_rep]
  refine setBatchCount_rep b ?_
  rw [batchCount_eq, Int32.ofInt_toInt]

theorem setBatchSequence_rep (s : Nat) :
    setBatchSequence (b.rep .bytes) s =
      ({ b with sequence := s } : WriteBatch Bytes Bytes).rep .bytes := by
  unfold setBatchSequence WriteBatch.rep
  rw [drop_left' (length_encodeFixed64 _)]

theorem drop_setBatchCount (n : Int) :
    (setBatchCount (b.rep .bytes) n).drop kHeader = (b.rep .bytes).drop kHeader := by
  have hlen : kHeader ≤ (b.rep .bytes).length := length_rep b
  unfold setBatchCount
  rw [← append_assoc]
  refine drop_left' ?_
  rw [length_append, length_take, length_encodeFixed32]
  unfold kHeader at hlen ⊢
  omega

end Rep

theorem runBytes_rep (batches : Nat → WriteBatch Bytes Bytes) (call : BatchCall) :
    call.runBytes (fun i => (batches i).rep .bytes) =
      fun i => (call.runOps batches i).rep .bytes := by
  have hupdate : ∀ (b : Nat) (x : WriteBatch Bytes Bytes),
      Function.update (fun i => (batches i).rep .bytes) b (x.rep .bytes) =
        fun i => (Function.update batches b x i).rep .bytes := by
    intro b x
    funext i
    by_cases hi : i = b
    · rw [hi, update_self, update_self]
    · rw [update_of_ne hi, update_of_ne hi]
  cases call with
  | put b key value =>
    have hput : putInBatch ((batches b).rep .bytes) key value = _ :=
      addToBatch_rep (batches b) (.put key value) rfl
    rw [BatchCall.runBytes, hput, hupdate]
    rfl
  | delete b key =>
    have hdelete : deleteInBatch ((batches b).rep .bytes) key = _ :=
      addToBatch_rep (batches b) (.delete key) rfl
    rw [BatchCall.runBytes, hdelete, hupdate]
    rfl
  | clear b => exact hupdate b ⟨0, []⟩
  | append dst src =>
    rw [BatchCall.runBytes, update_self, update_idem]
    have hsrc : ∀ n, (Function.update (fun i => (batches i).rep .bytes) dst
        (setBatchCount ((batches dst).rep .bytes) n) src).drop kHeader =
        ((batches src).rep .bytes).drop kHeader := by
      intro n
      -- the batch that is appended may be the one whose count has been set
      by_cases hself : src = dst
      · rw [hself, update_self, drop_setBatchCount]
      · rw [update_of_ne hself]
    rw [hsrc, appended_rep, hupdate]
    rfl
  | setSequence b s =>
    rw [BatchCall.runBytes, setBatchSequence_rep, hupdate]
    rfl
  | setContents b src => exact hupdate b (batches src)

/-- **Batches as strings.** They are those of the batches that the program describes. -/
theorem runBatches_eq (program : List BatchCall) :
    runBatches program = fun i => (batchesOf program i).rep .bytes := by
  unfold runBatches batchesOf
  have hrun : ∀ batches : Nat → WriteBatch Bytes Bytes,
      program.foldl BatchCall.runBytes (fun i => (batches i).rep .bytes) =
        fun i => (program.foldl BatchCall.runOps batches i).rep .bytes := by
    induction program with
    | nil => exact fun _ => rfl
    | cons call program ih =>
      intro batches
      rw [foldl_cons, foldl_cons, runBytes_rep]
      exact ih _
  exact hrun fun _ => ⟨0, []⟩

/-! ## What is read from them -/

/-- The strings of a batch are shorter than 4 GiB, and its sequence number has 64 bits. -/
structure WriteBatch.Short (b : WriteBatch Bytes Bytes) : Prop where
  keys : ∀ op ∈ b.ops, op.key.length < 2 ^ 32
  values : ∀ op ∈ b.ops, ∀ v ∈ op.value?, v.length < 2 ^ 32
  sequence : b.sequence < 2 ^ 64

theorem WriteBatch.Short.append {b : WriteBatch Bytes Bytes} (h : b.Short)
    {more : List (Op Bytes Bytes)} (hkeys : ∀ op ∈ more, op.key.length < 2 ^ 32)
    (hvalues : ∀ op ∈ more, ∀ v ∈ op.value?, v.length < 2 ^ 32) :
    ({ b with ops := b.ops ++ more } : WriteBatch Bytes Bytes).Short where
  keys := forall_mem_append.mpr ⟨h.keys, hkeys⟩
  values := forall_mem_append.mpr ⟨h.values, hvalues⟩
  sequence := h.sequence

theorem runOps_short {batches : Nat → WriteBatch Bytes Bytes} (h : ∀ i, (batches i).Short)
    {call : BatchCall} (hcall : call.Fits) (i : Nat) : (call.runOps batches i).Short := by
  have hupdate : ∀ {b : Nat} {x : WriteBatch Bytes Bytes}, x.Short →
      (Function.update batches b x i).Short := by
    intro b x hx
    by_cases hi : i = b
    · rwa [hi, update_self]
    · rw [update_of_ne hi]
      exact h i
  cases call with
  | put b key value =>
    refine hupdate ((h b).append ?_ ?_)
    · simpa [Op.key] using hcall.1
    · simpa [Op.value?] using hcall.2
  | delete b key =>
    refine hupdate ((h b).append ?_ ?_)
    · simpa [Op.key, BatchCall.Fits] using hcall
    · simp [Op.value?]
  | clear b => exact hupdate ⟨by simp, by simp, by simp⟩
  | append dst src => exact hupdate ((h dst).append (h src).keys (h src).values)
  | setSequence b s => exact hupdate ⟨(h b).keys, (h b).values, hcall⟩
  | setContents b src => exact hupdate (h src)

theorem batchesOf_short {program : List BatchCall} (h : ∀ call ∈ program, call.Fits) (i : Nat) :
    (batchesOf program i).Short := by
  have hrun : ∀ batches : Nat → WriteBatch Bytes Bytes, (∀ i, (batches i).Short) →
      ∀ i, (program.foldl BatchCall.runOps batches i).Short := by
    induction program with
    | nil => exact fun _ hbatches => hbatches
    | cons call program ih =>
      obtain ⟨hcall, hrest⟩ := forall_mem_cons.mp h
      intro batches hbatches
      exact ih hrest _ (runOps_short hbatches hcall)
  exact hrun _ (fun _ => ⟨by simp, by simp, by simp⟩) i

theorem length_runOps_le {batches : Nat → WriteBatch Bytes Bytes} {n : Nat}
    (h : ∀ i, (batches i).ops.length ≤ n) (call : BatchCall) (i : Nat) :
    (call.runOps batches i).ops.length ≤ 2 * n + 1 := by
  have hupdate : ∀ {b : Nat} {x : WriteBatch Bytes Bytes}, x.ops.length ≤ 2 * n + 1 →
      (Function.update batches b x i).ops.length ≤ 2 * n + 1 := by
    intro b x hx
    have hi := h i
    by_cases hb : i = b
    · rwa [hb, update_self]
    · rw [update_of_ne hb]
      omega
  cases call with
  | put b key value =>
    have hb := h b
    exact hupdate (by rw [length_append, length_singleton]; omega)
  | delete b key =>
    have hb := h b
    exact hupdate (by rw [length_append, length_singleton]; omega)
  | clear b => exact hupdate (Nat.zero_le _)
  | append dst src =>
    have hdst := h dst
    have hsrc := h src
    exact hupdate (by rw [length_append]; omega)
  | setSequence b s =>
    have hb := h b
    exact hupdate (show (batches b).ops.length ≤ _ by omega)
  | setContents b src =>
    have hsrc := h src
    exact hupdate (by omega)

theorem length_batchesOf_lt (program : List BatchCall) (i : Nat) :
    (batchesOf program i).ops.length < 2 ^ program.length := by
  induction program using List.reverseRecOn generalizing i with
  | nil => exact Nat.one_pos
  | append_singleton program call ih =>
    have hlast : batchesOf (program ++ [call]) = call.runOps (batchesOf program) := by
      unfold batchesOf
      rw [foldl_append]
      rfl
    have hle := length_runOps_le (fun j => Nat.le_sub_one_of_lt (ih j)) call i
    have hpos := Nat.two_pow_pos program.length
    rw [hlast, length_append, length_singleton, pow_succ]
    omega

/-- **Write batches.** `Iterate` succeeds with the operations since the last `Clear`, `Count` is
    their number, and `InsertInto` numbers them from `Sequence` on. -/
theorem batch_homomorphism (program : List BatchCall) (hfits : ∀ call ∈ program, call.Fits)
    (hcount : ∀ done, done <+: program → ∀ i, (batchesOf done i).ops.length < 2 ^ 31) (i : Nat) :
    iterate .bytes (runBatches program i) = ((batchesOf program i).ops, none) ∧
      batchCount (runBatches program i) = (batchesOf program i).ops.length ∧
      batchSequence (runBatches program i) = (batchesOf program i).sequence ∧
      ∀ mem : MemTable Bytes Bytes,
        (batchesOf program i).sequence + (batchesOf program i).ops.length ≤ 2 ^ 56 →
        insertInto .bytes (runBatches program i) mem =
          (mem.addAll (entriesFrom (batchesOf program i).sequence (batchesOf program i).ops), none) := by
  have hshort := batchesOf_short hfits i
  have hlen := hcount program (prefix_refl program) i
  rw [runBatches_eq]
  have hiterate : iterate .bytes ((batchesOf program i).rep .bytes) = _ :=
    iterate_written hshort.keys hshort.values hlen
  have hsequence : batchSequence ((batchesOf program i).rep .bytes) = (batchesOf program i).sequence :=
    decodeFixed64_encodeFixed64 hshort.sequence _
  refine ⟨hiterate, batchCount_written hlen, hsequence, fun mem hroom => ?_⟩
  unfold insertInto
  dsimp only
  rw [hiterate, hsequence]
  dsimp only
  rw [inserted_eq hroom]

theorem batch_homomorphism_self :
    iterate .bytes (runBatches [.delete 0 [9], .clear 0, .put 0 [1] [2], .delete 0 [], .append 0 0,
        .setSequence 0 7, .setContents 1 0] 1) =
      ([.put [1] [2], .delete [], .put [1] [2], .delete []], none) := by
  refine (batch_homomorphism [.delete 0 [9], .clear 0, .put 0 [1] [2], .delete 0 [], .append 0 0,
    .setSequence 0 7, .setContents 1 0] ?_ ?_ 1).1
  · simp [BatchCall.Fits]
  · intro done hdone j
    refine (length_batchesOf_lt done j).trans_le (Nat.pow_le_pow_right (by decide) ?_)
    exact hdone.length_le.trans (by decide)

/-! ## Strings and counts that do not fit -/

theorem iterate_longKey {key : Bytes} (hlen : key.length + 1 = 2 ^ 32) :
    iterate .bytes (runBatches [.delete 0 (2 :: key)] 0) =
      ([.delete []], some (.corruptionErr "unknown WriteBatch tag")) := by
  have hzero : encodeVarint32 ((2 :: key).length % 2 ^ 32) = [0] := by
    rw [length_cons, hlen]
    rfl
  have hrun : runBatches [.delete 0 (2 :: key)] 0 =
      [0, 0, 0, 0, 0, 0, 0, 0, 1, 0, 0, 0] ++ (0 :: 0 :: 2 :: key) := by
    show setBatchCount clearBatch (batchCount clearBatch + 1) ++
      (0 :: (encodeVarint32 ((2 :: key).length % 2 ^ 32) ++ 2 :: key)) = _
    rw [hzero]
    rfl
  rw [hrun]
  rfl

/-- A batch that has been appended to itself `n` times. -/
def doubled (n : Nat) : List BatchCall :=
  .delete 0 [] :: List.replicate n (.append 0 0)

theorem length_doubled (n : Nat) : (batchesOf (doubled n) 0).ops.length = 2 ^ n := by
  have hrun : ∀ (n : Nat) (batches : Nat → WriteBatch Bytes Bytes),
      ((List.replicate n (.append 0 0)).foldl BatchCall.runOps batches 0).ops.length =
        2 ^ n * (batches 0).ops.length := by
    intro n
    induction n with
    | zero =>
      intro batches
      exact (Nat.one_mul _).symm
    | succ n ih =>
      intro batches
      rw [replicate_succ, foldl_cons, ih, BatchCall.runOps, update_self,
        length_append, pow_succ]
      ring
  unfold batchesOf doubled
  rw [foldl_cons, hrun]
  exact Nat.mul_one _

/-- A key of `2 ^ 32` bytes is not read back, and `2 ^ 31` operations are counted as a negative
    number. -/
theorem batch_overflow :
    iterate .bytes (runBatches [.delete 0 (2 :: List.replicate (2 ^ 32 - 1) 0)] 0) =
        ([.delete []], some (.corruptionErr "unknown WriteBatch tag")) ∧
      (batchesOf (doubled 31) 0).ops.length = 2 ^ 31 ∧
      batchCount (runBatches (doubled 31) 0) = -2 ^ 31 := by
  refine ⟨iterate_longKey (by rw [length_replicate]; omega), length_doubled 31, ?_⟩
  rw [runBatches_eq]
  dsimp only
  rw [batchCount_eq, length_doubled]
  decide

end LevelDB
