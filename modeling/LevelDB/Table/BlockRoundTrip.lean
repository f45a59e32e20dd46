/-
  Blocks, written and read again (`table/block_builder.cc`, `table/block.cc`).
-/
import LevelDB.Table.TableBuilder

namespace LevelDB

open List Cursor

/-- **Blocks.** For every restart interval and any comparator the iterator of the finished block
    does what a cursor over the entries does, without an error. -/
theorem block_round_trip {κ : Type} [LinearOrder κ] {compare : Bytes → Bytes → Ordering}
    {rank : Bytes → κ} (hcmp : Compares compare rank) {interval : Nat} (hinterval : 1 ≤ interval)
    {es : List (Bytes × Bytes)} (hsorted : SortedList.Strict (fun e => rank e.1) es)
    (hsize : (BlockBuilder.addAll interval es).finish.length < 2 ^ 32) (calls : List (Call Bytes)) :
    run (Iter.machine compare).step (Iter.machine compare).observe
        (Block.new (BlockBuilder.addAll interval es).finish).newIterator calls =
      run (fun c call => Cursor.step (fun e => rank e.1) es c (Machine.rankCall rank call))
        (fun c => (c.current, none)) .invalid calls := by
  obtain ⟨L, hbytes, rfl⟩ := build_layout hinterval hsize
  rw [← hbytes]
  have hfaithful := L.faithful hcmp fun (_ : Bytes) (_ : True) => hsorted
  have hcalls : ∀ call ∈ calls, Machine.Allows (fun _ => True) call := by
    intro call _
    cases call <;> trivial
  have hrun := hfaithful.run_eq hsorted L.tracks_new hcalls
  rwa [nth_of_le (le_refl _)] at hrun

theorem block_round_trip_three :
    run (Iter.machine TableOrder.bytewise.comparator.compare).step
        (Iter.machine TableOrder.bytewise.comparator.compare).observe
        (Block.new (BlockBuilder.addAll 2 [([1], [10]), ([1, 2], []), ([3], [30])]).finish).newIterator
        [.seek [2], .prev, .seek [1, 1], .next] =
      some [(some ([3], [30]), none), (some ([1, 2], []), none), (some ([1, 2], []), none),
        (some ([3], [30]), none)] := by
  have hsorted : SortedList.Strict (fun e : Bytes × Bytes => TableOrder.bytewise.rank e.1)
      [([1], [10]), ([1, 2], []), ([3], [30])] := by decide +kernel
  rw [block_round_trip TableOrder.bytewise.compares (by decide) hsorted (by decide +kernel)]
  decide +kernel

/-! ## Values of 4 GiB -/

/-- `LookupKey(k, s).internal_key()`. -/
def lookupKeyBytes (k : Bytes) (s : Nat) : Bytes :=
  k ++ encodeFixed64 (packSequenceAndType s kValueTypeForSeek)

def internalBuilderOptions : TableBuilderOptions := ⟨TableOrder.internal.comparator, 4096, 16, none⟩

section Truncated

def singleBlock (key value : Bytes) : Bytes :=
  internalBuilderOptions.blockBytes [(key, value)]

def bigKey : Bytes := lookupKeyBytes [] 1

variable {value : Bytes}

theorem singleBlock_eq (hlen : value.length = 2 ^ 32) :
    singleBlock bigKey value = ([0, 8, 0] ++ bigKey) ++ (value ++ [0, 0, 0, 0, 1, 0, 0, 0]) := by
  have hheader : entryHeader 0 (bigKey.length - 0) value.length = [0, 8, 0] := by
    unfold entryHeader
    rw [hlen]
    decide +kernel
  show ([] ++ (entryHeader 0 (bigKey.length - 0) value.length ++ (bigKey.drop 0 ++ value))) ++
    ((encodeFixed32 (UInt32.ofNat 0) ++ []) ++ encodeFixed32 (UInt32.ofNat 1)) = _
  rw [hheader]
  simp only [nil_append, append_nil, append_assoc, drop_zero]
  rfl

theorem newIterator_singleBlock (hlen : value.length = 2 ^ 32) :
    (Block.new (singleBlock bigKey value)).newIterator =
      .block (BlockIter.new (singleBlock bigKey value) 11 1) := by
  have hsize : (singleBlock bigKey value).length = 2 ^ 32 + 19 := by
    rw [singleBlock_eq hlen, length_append, length_append, length_append, hlen]
    rfl
  have hnum : Block.numRestarts (singleBlock bigKey value) (2 ^ 32 + 19) = 1 := by
    have hsplit : singleBlock bigKey value =
        (([0, 8, 0] ++ bigKey) ++ (value ++ [0, 0, 0, 0])) ++ [1, 0, 0, 0] := by
      rw [singleBlock_eq hlen]
      simp only [append_assoc]
      rfl
    unfold Block.numRestarts
    rw [hsplit, drop_left']
    · rfl
    · rw [length_append, length_append, length_append, hlen]
      rfl
  have hnew : Block.new (singleBlock bigKey value) =
      ⟨singleBlock bigKey value, 2 ^ 32 + 19, 11⟩ := by
    unfold Block.new
    dsimp only
    rw [hsize, hnum, if_neg (by decide), if_neg (by decide)]
    rfl
  rw [hnew]
  unfold Block.newIterator
  dsimp only
  rw [hnum, if_neg (by decide), if_neg (by decide)]

theorem seek_singleBlock (hlen : value.length = 2 ^ 32) (hzero : value.take 4 = [0, 0, 0, 0]) :
    (Iter.machine TableOrder.internal.comparator.compare).observe
      ((Iter.machine TableOrder.internal.comparator.compare).seek bigKey
        (Block.new (singleBlock bigKey value)).newIterator) = (some (bigKey, []), none) := by
  have htake : (singleBlock bigKey value).take 11 = [0, 8, 0] ++ bigKey := by
    rw [singleBlock_eq hlen]
    exact take_left' rfl
  have hrestart : decodeFixed32 ((singleBlock bigKey value).drop 11) = 0 := by
    have hhead : ([0, 8, 0] ++ bigKey).length = 11 := rfl
    rw [singleBlock_eq hlen, drop_left' hhead]
    unfold decodeFixed32
    rw [take_append_of_le_length (by rw [hlen]; decide), hzero]
    rfl
  rw [newIterator_singleBlock hlen]
  generalize singleBlock bigKey value = data at htake hrestart
  have hentry : decodeEntry ((data.take 11).drop 0) = some (0, 8, 0, bigKey) := by
    rw [htake]
    decide +kernel
  have hparse : ((BlockIter.new data 11 1).seekToRestartPoint 0).parseNextKey =
      (true, ⟨data, 11, 1, 0, 0, bigKey, 11, 0, none⟩) := by
    have hstart : (BlockIter.new data 11 1).seekToRestartPoint 0 =
        ⟨data, 11, 1, 11, 0, [], 0, 0, none⟩ := by
      unfold BlockIter.seekToRestartPoint BlockIter.getRestartPoint
      show (⟨data, 11, 1, 11, 0, [], (decodeFixed32 (data.drop 11)).toNat, 0, none⟩ : BlockIter) = _
      rw [hrestart]
      rfl
    rw [hstart]
    unfold BlockIter.parseNextKey
    simp only [BlockIter.nextEntryOffset, Nat.add_zero, Nat.zero_mod, hentry]
    rfl
  have hseek : BlockIter.seek TableOrder.internal.comparator.compare bigKey
      (BlockIter.new data 11 1) = ⟨data, 11, 1, 0, 0, bigKey, 11, 0, none⟩ := by
    show BlockIter.scanFor _ bigKey 12 ((BlockIter.new data 11 1).seekToRestartPoint 0) = _
    rw [BlockIter.scanFor, hparse]
    rfl
  show (Iter.current (.block (BlockIter.seek _ bigKey (BlockIter.new data 11 1))),
    Iter.status (.block (BlockIter.seek _ bigKey (BlockIter.new data 11 1)))) = _
  rw [hseek]
  rfl

end Truncated

/-- An entry with a value of `2 ^ 32` zero bytes is read with an empty one. -/
theorem block_truncated :
    run (Iter.machine TableOrder.internal.comparator.compare).step
        (Iter.machine TableOrder.internal.comparator.compare).observe
        (Block.new (BlockBuilder.addAll 16 [(bigKey, List.replicate (2 ^ 32) 0)]).finish).newIterator
        [.seek bigKey] ≠
      run (fun c call => Cursor.step (fun e => TableOrder.internal.rank e.1)
          [(bigKey, List.replicate (2 ^ 32) 0)] c (Machine.rankCall TableOrder.internal.rank call))
        (fun c => (c.current, none)) .invalid [.seek bigKey] := by
  have hlen : (List.replicate (2 ^ 32) (0 : UInt8)).length = 2 ^ 32 := length_replicate
  have hseek := seek_singleBlock hlen (take_replicate.trans rfl)
  generalize List.replicate (2 ^ 32) (0 : UInt8) = value at hlen hseek
  have hread : run (Iter.machine TableOrder.internal.comparator.compare).step
      (Iter.machine TableOrder.internal.comparator.compare).observe
      (Block.new (BlockBuilder.addAll 16 [(bigKey, value)]).finish).newIterator [.seek bigKey] =
      some [(some (bigKey, []), none)] := congrArg (fun o => some [o]) hseek
  rw [hread]
  intro heq
  have hvalue : (some (bigKey, []) : Option (Bytes × Bytes)) = some (bigKey, value) :=
    congrArg Prod.fst (head_eq_of_cons_eq (Option.some.inj heq))
  have hnil : [] = value := congrArg Prod.snd (Option.some.inj hvalue)
  rw [← hnil] at hlen
  cases hlen

end LevelDB
