/-
  Filter policies and filter blocks (`include/leveldb/filter_policy.h`, `table/filter_block.cc`,
  `InternalFilterPolicy` in `db/dbformat.cc`).

  A filter block has one filter for each 2 KiB of file offsets: the filter with number `i`
  summarises the keys of the data blocks that start in the `i`-th 2 KiB.
-/
import LevelDB.Util.Coding

namespace LevelDB

open List

/-- `class FilterPolicy`. `createFilter` is what `CreateFilter` appends. -/
structure FilterPolicy where
  name : String
  createFilter : List Bytes → Bytes
  keyMayMatch : Bytes → Bytes → Bool

/-- `KeyMayMatch` returns true for the keys that were passed to `CreateFilter`. -/
def FilterPolicy.NoFalseNegatives (p : FilterPolicy) : Prop :=
  ∀ keys, ∀ k ∈ keys, p.keyMayMatch k (p.createFilter keys) = true

def extractUserKey (internalKey : Bytes) : Bytes := internalKey.take (internalKey.length - 8)

def internalFilterPolicy (userPolicy : FilterPolicy) : FilterPolicy where
  name := userPolicy.name
  createFilter keys := userPolicy.createFilter (keys.map extractUserKey)
  keyMayMatch key filter := userPolicy.keyMayMatch (extractUserKey key) filter

theorem FilterPolicy.NoFalseNegatives.internal {p : FilterPolicy} (h : p.NoFalseNegatives) :
    (internalFilterPolicy p).NoFalseNegatives :=
  fun _ _ hk => h _ _ (List.mem_map_of_mem hk)

/-! ## Filter blocks -/

def kFilterBase : Nat := 2048

/-- `class FilterBlockBuilder`: the keys that wait for their filter, and the filters. -/
structure FilterBlockBuilder where
  keys : List Bytes
  filters : List Bytes

namespace FilterBlockBuilder

variable (p : FilterPolicy)

/-- `GenerateFilter`. Without keys the filter is empty. -/
def generateFilter (b : FilterBlockBuilder) : FilterBlockBuilder :=
  ⟨[], b.filters ++ [if b.keys.isEmpty then [] else p.createFilter b.keys]⟩

/-- `StartBlock`: a filter for each 2 KiB before the block. -/
def startBlock (b : FilterBlockBuilder) (blockOffset : Nat) : FilterBlockBuilder :=
  (generateFilter p)^[blockOffset / kFilterBase - b.filters.length] b

/-- `AddKey`, for each key of a block. -/
def addKeys (b : FilterBlockBuilder) (keys : List Bytes) : FilterBlockBuilder :=
  { b with keys := b.keys ++ keys }

theorem addKeys_nil (b : FilterBlockBuilder) : b.addKeys [] = b := by
  unfold addKeys
  rw [append_nil]

theorem addKeys_addKeys (b : FilterBlockBuilder) (keys keys' : List Bytes) :
    (b.addKeys keys).addKeys keys' = b.addKeys (keys ++ keys') := by
  unfold addKeys
  rw [append_assoc]

def addBlock (b : FilterBlockBuilder) (block : Nat × List Bytes) : FilterBlockBuilder :=
  (b.startBlock p block.1).addKeys block.2

def finish (b : FilterBlockBuilder) : List Bytes :=
  if b.keys.isEmpty then b.filters else (b.generateFilter p).filters

end FilterBlockBuilder

open FilterBlockBuilder

/-- What `TableBuilder` makes for data blocks with their offsets and keys; `dataEnd` is the offset
    after the last of them. -/
def filterBlock (p : FilterPolicy) (blocks : List (Nat × List Bytes)) (dataEnd : Nat) :
    List Bytes :=
  ((blocks.foldl (addBlock p) ⟨[], []⟩).startBlock p dataEnd).finish p

/-- `FilterBlockReader::KeyMayMatch`. Where there is no filter, everything may match. -/
def filterKeyMayMatch (p : FilterPolicy) (filters : List Bytes) (blockOffset : Nat) (key : Bytes) :
    Bool :=
  match filters[blockOffset / kFilterBase]? with
  | some filter => p.keyMayMatch key filter
  | none => true

section NoFalseNegatives

variable {p : FilterPolicy}

/-- The key waits for the filter with number `i`, or this filter lets it pass. -/
def Summarised (p : FilterPolicy) (b : FilterBlockBuilder) (i : Nat) (key : Bytes) : Prop :=
  (key ∈ b.keys ∧ b.filters.length = i) ∨
    ∃ filter, b.filters[i]? = some filter ∧ p.keyMayMatch key filter = true

section

variable {b : FilterBlockBuilder} {i : Nat} {key : Bytes} (h : Summarised p b i key)
include h

theorem Summarised.generateFilter
    (hp : p.NoFalseNegatives) : Summarised p (b.generateFilter p) i key := by
  right
  unfold FilterBlockBuilder.generateFilter
  dsimp only
  obtain ⟨hkey, rfl⟩ | ⟨filter, hfilter, hmatch⟩ := h
  · have hne : b.keys.isEmpty = false := by
      rw [isEmpty_eq_false_iff]
      exact ne_nil_of_mem hkey
    rw [hne, if_neg Bool.false_ne_true]
    exact ⟨_, by simp, hp _ _ hkey⟩
  · grind

theorem Summarised.startBlock (hp : p.NoFalseNegatives) (offset : Nat) :
    Summarised p (b.startBlock p offset) i key := by
  unfold FilterBlockBuilder.startBlock
  generalize offset / kFilterBase - b.filters.length = n
  induction n generalizing b with
  | zero => exact h
  | succ n ih => exact ih (h.generateFilter hp)

theorem Summarised.addKeys (keys : List Bytes) : Summarised p (b.addKeys keys) i key :=
  h.imp (fun h => ⟨mem_append_left _ h.1, h.2⟩) id

theorem Summarised.finish (hp : p.NoFalseNegatives) :
    ∃ filter, (b.finish p)[i]? = some filter ∧ p.keyMayMatch key filter = true := by
  unfold FilterBlockBuilder.finish
  split_ifs with hempty
  · obtain ⟨hkey, -⟩ | h := h
    · rw [List.isEmpty_iff.mp hempty] at hkey
      exact absurd hkey not_mem_nil
    · exact h
  · obtain ⟨hkey, -⟩ | h := h.generateFilter hp
    · exact absurd hkey not_mem_nil
    · exact h

end

theorem length_startBlock (b : FilterBlockBuilder) (offset : Nat) :
    (b.startBlock p offset).filters.length = max b.filters.length (offset / kFilterBase) := by
  have hiterate : ∀ n, ((FilterBlockBuilder.generateFilter p)^[n] b).filters.length =
      b.filters.length + n := by
    intro n
    induction n with
    | zero => rfl
    | succ n ih =>
      rw [Function.iterate_succ_apply']
      show (_ ++ [_]).length = _
      rw [length_append, ih]
      rfl
  unfold FilterBlockBuilder.startBlock
  rw [hiterate]
  omega

section

variable (hp : p.NoFalseNegatives) {blocks : List (Nat × List Bytes)}
include hp

theorem summarised_foldl
    {b : FilterBlockBuilder} {i : Nat} {key : Bytes} (h : Summarised p b i key) :
    Summarised p (blocks.foldl (addBlock p) b) i key := by
  induction blocks generalizing b with
  | nil => exact h
  | cons block blocks ih => exact ih ((h.startBlock hp block.1).addKeys block.2)

theorem summarised_of_mem (hsorted : blocks.Pairwise fun a b => a.1 ≤ b.1) {b : FilterBlockBuilder}
    (hb : ∀ block ∈ blocks, b.filters.length ≤ block.1 / kFilterBase) {block : Nat × List Bytes}
    (hblock : block ∈ blocks) {key : Bytes} (hkey : key ∈ block.2) :
    Summarised p (blocks.foldl (addBlock p) b)
      (block.1 / kFilterBase) key := by
  induction blocks generalizing b with
  | nil => exact absurd hblock not_mem_nil
  | cons first blocks ih =>
    obtain ⟨hfirst, hsorted⟩ := pairwise_cons.mp hsorted
    have hlength : (b.addBlock p first).filters.length = first.1 / kFilterBase := by
      show (b.startBlock p first.1).filters.length = _
      rw [length_startBlock, max_eq_right (hb first mem_cons_self)]
    rw [foldl_cons]
    obtain rfl | hblock := mem_cons.mp hblock
    · exact summarised_foldl hp (.inl ⟨mem_append_right _ hkey, hlength⟩)
    · grind [Nat.div_le_div_right]

/-- **Filter blocks** built and probed with one policy let every key of a block pass at the
    block's offset. -/
theorem filterBlock_keyMayMatch
    (hsorted : blocks.Pairwise fun a b => a.1 ≤ b.1) (dataEnd : Nat) {block : Nat × List Bytes}
    (hblock : block ∈ blocks) {key : Bytes} (hkey : key ∈ block.2) :
    filterKeyMayMatch p (filterBlock p blocks dataEnd) block.1 key = true := by
  have hsummarised : Summarised p (blocks.foldl (addBlock p) ⟨[], []⟩)
      (block.1 / kFilterBase) key :=
    summarised_of_mem hp hsorted (fun _ _ => Nat.zero_le _) hblock hkey
  obtain ⟨filter, hfilter, hmatch⟩ := (hsummarised.startBlock hp dataEnd).finish hp
  unfold filterKeyMayMatch filterBlock
  rw [hfilter]
  exact hmatch

end

end NoFalseNegatives

/-! ## Stored filter blocks -/

def kFilterBaseLg : Nat := 11

/-- Where the filter with number `i` starts, and where the last one ends. -/
def filterOffset (filters : List Bytes) (i : Nat) : Nat := (filters.take i).flatten.length

/-- What `Finish` returns: the filters, their offsets as `uint32_t`, the offset of this array, and
    `kFilterBaseLg`. -/
def filterBlockBytes (filters : List Bytes) : Bytes :=
  filters.flatten ++
    ((List.range filters.length).flatMap
        (fun i => encodeFixed32 (UInt32.ofNat (filterOffset filters i))) ++
      (encodeFixed32 (UInt32.ofNat filters.flatten.length) ++ [UInt8.ofNat kFilterBaseLg]))

/-- `class FilterBlockReader`; `offset` is `offset_ - data_`. -/
structure FilterBlockReader where
  policy : FilterPolicy
  data : Bytes
  offset : Nat
  num : Nat
  baseLg : Nat

namespace FilterBlockReader

/-- `FilterBlockReader::FilterBlockReader`. -/
def new (policy : FilterPolicy) (contents : Bytes) : FilterBlockReader :=
  let n := contents.length
  if n < 5 then ⟨policy, [], 0, 0, 0⟩
  else
    let baseLg := (contents.getD (n - 1) 0).toNat
    let lastWord := (decodeFixed32 (contents.drop (n - 5))).toNat
    if n - 5 < lastWord then ⟨policy, [], 0, 0, baseLg⟩
    else ⟨policy, contents, lastWord, (n - 5 - lastWord) / 4, baseLg⟩

def keyMayMatch (r : FilterBlockReader) (blockOffset : Nat) (key : Bytes) : Bool :=
  let index := blockOffset >>> r.baseLg
  if index < r.num then
    let start := (decodeFixed32 (r.data.drop (r.offset + index * 4))).toNat
    let limit := (decodeFixed32 (r.data.drop (r.offset + index * 4 + 4))).toNat
    if start ≤ limit ∧ limit ≤ r.offset then
      r.policy.keyMayMatch key ((r.data.drop start).take (limit - start))
    else decide (start ≠ limit)
  else true

theorem filterBlockBytes_eq (filters : List Bytes) :
    filterBlockBytes filters = filters.flatten ++
      ((List.range (filters.length + 1)).flatMap
        (fun i => encodeFixed32 (UInt32.ofNat (filterOffset filters i))) ++
        [UInt8.ofNat kFilterBaseLg]) := by
  have hend : filterOffset filters filters.length = filters.flatten.length := by
    unfold filterOffset
    rw [take_length]
  unfold filterBlockBytes
  rw [range_succ, flatMap_append, flatMap_singleton, hend, append_assoc]

theorem length_offsets (filters : List Bytes) (n : Nat) :
    ((List.range n).flatMap
      fun i => encodeFixed32 (UInt32.ofNat (filterOffset filters i))).length = n * 4 := by
  rw [length_flatMap]
  simp

theorem length_filterBlockBytes (filters : List Bytes) :
    (filterBlockBytes filters).length = filters.flatten.length + filters.length * 4 + 5 := by
  rw [filterBlockBytes_eq, length_append, length_append, length_offsets]
  show _ + ((filters.length + 1) * 4 + 1) = _
  omega

variable {filters : List Bytes}

theorem filterOffset_succ {i : Nat} {filter : Bytes} (h : filters[i]? = some filter) :
    filterOffset filters (i + 1) = filterOffset filters i + filter.length := by
  unfold filterOffset
  rw [take_add_one, h, Option.toList_some, flatten_append, length_append,
    flatten_singleton]

theorem filterOffset_le (filters : List Bytes) (i : Nat) :
    filterOffset filters i ≤ filters.flatten.length := by
  unfold filterOffset
  conv_rhs => rw [← List.take_append_drop i filters, flatten_append, length_append]
  exact Nat.le_add_right _ _

theorem decodeFixed32_filterOffset {i : Nat} (hi : i ≤ filters.length) :
    decodeFixed32 ((filterBlockBytes filters).drop (filters.flatten.length + i * 4)) =
      UInt32.ofNat (filterOffset filters i) := by
  have hget : (List.range (filters.length + 1))[i]? = some i := by
    rw [getElem?_range (by omega)]
  rw [filterBlockBytes_eq, ← drop_drop, drop_left, drop_flatMap_encodeFixed32 _ hget]

theorem decode_filterOffset (hsize : filters.flatten.length < 2 ^ 32) {i : Nat}
    (hi : i ≤ filters.length) :
    (decodeFixed32 ((filterBlockBytes filters).drop (filters.flatten.length + i * 4))).toNat =
      filterOffset filters i := by
  rw [decodeFixed32_filterOffset hi]
  exact UInt32.toNat_ofNat_of_lt' ((filterOffset_le filters i).trans_lt hsize)

theorem new_filterBlockBytes (policy : FilterPolicy) (hsize : filters.flatten.length < 2 ^ 32) :
    new policy (filterBlockBytes filters) =
      ⟨policy, filterBlockBytes filters, filters.flatten.length, filters.length, kFilterBaseLg⟩ := by
  have hlen := length_filterBlockBytes filters
  have hbase : ((filterBlockBytes filters).getD ((filterBlockBytes filters).length - 1) 0).toNat =
      kFilterBaseLg := by
    have hsplit : filterBlockBytes filters = (filters.flatten ++
        (List.range (filters.length + 1)).flatMap
          (fun i => encodeFixed32 (UInt32.ofNat (filterOffset filters i)))) ++
        [UInt8.ofNat kFilterBaseLg] := by
      rw [filterBlockBytes_eq, append_assoc]
    rw [hsplit, getD_eq_getElem?_getD, length_append, length_singleton,
      Nat.add_sub_cancel, getElem?_append_right (le_refl _), Nat.sub_self]
    rfl
  have hword : (decodeFixed32 ((filterBlockBytes filters).drop
      ((filterBlockBytes filters).length - 5))).toNat = filters.flatten.length := by
    rw [show (filterBlockBytes filters).length - 5 = filters.flatten.length + filters.length * 4 by
      omega, decode_filterOffset hsize (le_refl _)]
    unfold filterOffset
    rw [take_length]
  unfold new
  dsimp only
  rw [if_neg (by omega), hbase, hword, if_neg (by omega)]
  congr 1
  omega

theorem filter_at {i : Nat} {filter : Bytes} (h : filters[i]? = some filter) :
    ((filterBlockBytes filters).drop (filterOffset filters i)).take filter.length = filter := by
  obtain ⟨hi, rfl⟩ := List.getElem?_eq_some_iff.mp h
  have hflatten : filters.flatten = (filters.take i).flatten ++
      (filters[i] ++ (filters.drop (i + 1)).flatten) := by
    conv_lhs => rw [← List.take_append_drop i filters, drop_eq_getElem_cons hi,
      flatten_append, flatten_cons]
  rw [filterBlockBytes_eq, hflatten, append_assoc, append_assoc]
  unfold filterOffset
  rw [drop_left, take_left]

/-- **Stored filter blocks** are probed as the list of their filters. -/
theorem keyMayMatch_eq (policy : FilterPolicy) (hsize : filters.flatten.length < 2 ^ 32)
    (blockOffset : Nat) (key : Bytes) :
    (new policy (filterBlockBytes filters)).keyMayMatch blockOffset key =
      filterKeyMayMatch policy filters blockOffset key := by
  have hindex : blockOffset >>> kFilterBaseLg = blockOffset / kFilterBase :=
    Nat.shiftRight_eq_div_pow _ _
  rw [new_filterBlockBytes policy hsize]
  unfold keyMayMatch filterKeyMayMatch
  dsimp only
  rw [hindex]
  generalize blockOffset / kFilterBase = i
  by_cases hi : i < filters.length
  · have hfilter := getElem?_eq_getElem hi
    have hsucc := filterOffset_succ hfilter
    have hle := filterOffset_le filters (i + 1)
    have hlimit := decode_filterOffset hsize (show i + 1 ≤ filters.length from hi)
    rw [Nat.add_mul, Nat.one_mul, ← Nat.add_assoc] at hlimit
    rw [if_pos hi, hfilter, decode_filterOffset hsize hi.le, hlimit, if_pos (by omega), hsucc,
      Nat.add_sub_cancel_left, filter_at hfilter]
  · rw [if_neg hi, getElem?_eq_none (not_lt.mp hi)]

theorem keyMayMatch_wrapped (policy : FilterPolicy) {filter : Bytes} (hlen : filter.length = 2 ^ 32)
    (hzero : filter.take 8 = List.replicate 8 0) (key : Bytes) :
    (new policy (filterBlockBytes [filter])).keyMayMatch 0 key = policy.keyMayMatch key [] := by
  have hlength : (filterBlockBytes [filter]).length = 2 ^ 32 + 1 * 4 + 5 := by
    rw [length_filterBlockBytes, flatten_singleton, hlen, length_singleton]
  have hend : (decodeFixed32 ((filterBlockBytes [filter]).drop (2 ^ 32 + 1 * 4))).toNat = 0 := by
    have hoffset := decodeFixed32_filterOffset (show 1 ≤ [filter].length from le_rfl)
    rw [flatten_singleton, hlen] at hoffset
    rw [hoffset]
    show (UInt32.ofNat [filter].flatten.length).toNat = 0
    rw [flatten_singleton, hlen]
    rfl
  obtain ⟨rest, hrest⟩ : ∃ rest, filterBlockBytes [filter] = List.replicate 8 0 ++ rest := by
    unfold filterBlockBytes
    rw [flatten_singleton, ← List.take_append_drop 8 filter, hzero, append_assoc]
    exact ⟨_, rfl⟩
  have hstart : (decodeFixed32 ((filterBlockBytes [filter]).drop (0 + 0 * 4))).toNat = 0 := by
    rw [hrest]
    rfl
  have hlimit : (decodeFixed32 ((filterBlockBytes [filter]).drop (0 + 0 * 4 + 4))).toNat = 0 := by
    rw [hrest]
    rfl
  unfold new
  dsimp only
  rw [hlength, Nat.add_sub_cancel, hend, if_neg (by omega), if_neg (Nat.not_lt_zero _)]
  unfold keyMayMatch
  dsimp only
  rw [Nat.zero_shiftRight, if_pos (by omega), hstart, hlimit, if_pos ⟨le_rfl, le_rfl⟩]
  rfl

end FilterBlockReader

/-- **Stored filter blocks have no false negatives**, if the filters have less than 4 GiB. -/
theorem stored_filterBlock_keyMayMatch {p : FilterPolicy} (hp : p.NoFalseNegatives)
    {blocks : List (Nat × List Bytes)} (hsorted : blocks.Pairwise fun a b => a.1 ≤ b.1)
    (dataEnd : Nat) (hsize : (filterBlock p blocks dataEnd).flatten.length < 2 ^ 32) :
    ∀ block ∈ blocks, ∀ key ∈ block.2,
      (FilterBlockReader.new p (filterBlockBytes (filterBlock p blocks dataEnd))).keyMayMatch
        block.1 key = true := by
  simp_all [FilterBlockReader.keyMayMatch_eq, filterBlock_keyMayMatch]

def lengthPolicy : FilterPolicy where
  name := "lengths"
  createFilter keys := keys.map fun k => UInt8.ofNat k.length
  keyMayMatch key filter := decide (UInt8.ofNat key.length ∈ filter)

theorem lengthPolicy_noFalseNegatives : lengthPolicy.NoFalseNegatives := by
  intro keys k hk
  exact decide_eq_true (List.mem_map.mpr ⟨k, hk, rfl⟩)

theorem stored_filterBlock_keyMayMatch_gap :
    (FilterBlockReader.new lengthPolicy (filterBlockBytes (filterBlock lengthPolicy
      [(0, [[1], [2, 3]]), (100, [[4, 5, 6]]), (5000, [[7, 8, 9, 10]])] 9000))).keyMayMatch
        5000 [7, 8, 9, 10] = true :=
  stored_filterBlock_keyMayMatch lengthPolicy_noFalseNegatives (by decide) 9000 (by decide +kernel)
    (5000, [[7, 8, 9, 10]]) (by decide) [7, 8, 9, 10] (by decide)

def longPolicy : FilterPolicy where
  name := "long"
  createFilter _ := List.replicate (2 ^ 32) 0
  keyMayMatch _ filter := !filter.isEmpty

/-- The filter of 4 GiB is taken for an empty one. -/
theorem stored_filterBlock_long :
    longPolicy.NoFalseNegatives ∧
      (FilterBlockReader.new longPolicy (filterBlockBytes
        (filterBlock longPolicy [(0, [[]])] 0))).keyMayMatch 0 [] = false := by
  constructor
  · intro keys k _
    show (!(List.replicate (2 ^ 32) (0 : UInt8)).isEmpty) = true
    rw [isEmpty_replicate]
    rfl
  · have hfilters : filterBlock longPolicy [(0, [[]])] 0 = [List.replicate (2 ^ 32) 0] := rfl
    rw [hfilters, FilterBlockReader.keyMayMatch_wrapped longPolicy length_replicate]
    · rfl
    · rw [take_replicate]
      rfl

end LevelDB
