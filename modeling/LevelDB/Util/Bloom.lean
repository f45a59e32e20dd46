/-
  Bloom filters (`util/bloom.cc`, `util/hash.cc`).

  Sizes are those of `size_t`: the number of bits may wrap around, and so may its rounding up, in
  which case there are no bits and the remainder by their number is not defined (`none`).
-/
import LevelDB.Util.Coding

namespace LevelDB

open List

/-! ## Hashing -/

/-- The bytes after the last four of `Hash`. -/
def hashTail (h : UInt32) : UInt32 :=
  let h := h * 0xc6a4a793
  h ^^^ (h >>> 24)

/-- `Hash`, from its loop on. -/
def hashLoop (h : UInt32) : Bytes → UInt32
  | b0 :: b1 :: b2 :: b3 :: rest =>
    let h := (h + decodeFixed32 [b0, b1, b2, b3]) * 0xc6a4a793
    hashLoop (h ^^^ (h >>> 16)) rest
  | [b0, b1, b2] => hashTail (h + (b2.toUInt32 <<< 16) + (b1.toUInt32 <<< 8) + b0.toUInt32)
  | [b0, b1] => hashTail (h + (b1.toUInt32 <<< 8) + b0.toUInt32)
  | [b0] => hashTail (h + b0.toUInt32)
  | [] => h

def hash (data : Bytes) (seed : UInt32) : UInt32 :=
  hashLoop (seed ^^^ (UInt32.ofNat data.length * 0xc6a4a793)) data

def bloomHash (key : Bytes) : UInt32 := hash key 0xbc9f1d34

/-! ## The policy -/

/-- `class BloomFilterPolicy`. -/
structure BloomFilterPolicy where
  bitsPerKey : Nat
  k : Nat
  one_le_k : 1 ≤ k
  k_le_thirty : k ≤ 30

def bitMask (bitpos : Nat) : UInt8 := 1 <<< UInt8.ofNat (bitpos % 8)

/-- `array[bitpos / 8] |= 1 << (bitpos % 8)`, where `array` starts at `initSize`. -/
def setBit (initSize bitpos : Nat) (dst : Bytes) : Bytes :=
  dst.modify (initSize + bitpos / 8) (· ||| bitMask bitpos)

/-- The loop of `CreateFilter` over the probes of a key. -/
def setProbes (bits initSize : Nat) (delta : UInt32) : Nat → UInt32 → Bytes → Option Bytes
  | 0, _, dst => some dst
  | j + 1, h, dst =>
    if bits = 0 then none
    else setProbes bits initSize delta j (h + delta) (setBit initSize (h.toNat % bits) dst)

/-- The loop of `KeyMayMatch`. -/
def testProbes (bits : Nat) (array : Bytes) (delta : UInt32) : Nat → UInt32 → Bool
  | 0, _ => true
  | j + 1, h =>
    if array.getD (h.toNat % bits / 8) 0 &&& bitMask (h.toNat % bits) = 0 then false
    else testProbes bits array delta j (h + delta)

def bloomDelta (h : UInt32) : UInt32 := (h >>> 17) ||| (h <<< 15)

namespace BloomFilterPolicy

variable (p : BloomFilterPolicy)

/-- The size of the array for `n` keys. -/
def numBytes (n : Nat) : Nat :=
  let bits := n * p.bitsPerKey % 2 ^ 64
  let bits := if bits < 64 then 64 else bits
  (bits + 7) % 2 ^ 64 / 8

/-- What `CreateFilter` does for a key. -/
def addKey (bits initSize : Nat) (dst : Bytes) (key : Bytes) : Option Bytes :=
  setProbes bits initSize (bloomDelta (bloomHash key)) p.k (bloomHash key) dst

/-- `CreateFilter`: `dst` in the end. -/
def createFilter (keys : List Bytes) (dst : Bytes) : Option Bytes :=
  let bytes := p.numBytes keys.length
  keys.foldlM (p.addKey (bytes * 8) dst.length)
    (dst ++ List.replicate bytes 0 ++ [UInt8.ofNat p.k])

/-- `KeyMayMatch`; it does not look at the policy. -/
def keyMayMatch (_p : BloomFilterPolicy) (key bloomFilter : Bytes) : Bool :=
  let len := bloomFilter.length
  if len < 2 then false
  else
    let k := (bloomFilter.getD (len - 1) 0).toNat
    if 30 < k then true
    else testProbes ((len - 1) * 8 % 2 ^ 64) bloomFilter (bloomDelta (bloomHash key)) k
      (bloomHash key)

end BloomFilterPolicy

/-! ## Bits -/

def BitAt (array : Bytes) (pos : Nat) : Prop := array.getD (pos / 8) 0 &&& bitMask pos ≠ 0

theorem bitMask_ne_zero (pos : Nat) : bitMask pos ≠ 0 := by
  have hall : ∀ i < 8, (1 : UInt8) <<< UInt8.ofNat i ≠ 0 := by decide
  exact hall _ (Nat.mod_lt _ (by decide))

theorem or_and_distrib (x y m : UInt8) : (x ||| y) &&& m = (x &&& m) ||| (y &&& m) := by
  apply UInt8.toNat_inj.mp
  rw [UInt8.toNat_and, UInt8.toNat_or, UInt8.toNat_or, UInt8.toNat_and, UInt8.toNat_and]
  exact Nat.and_or_distrib_right _ _ _

variable {array : Bytes}

theorem BitAt.setBit {pos : Nat} (h : BitAt array pos) (q : Nat) :
    BitAt (setBit 0 q array) pos := by
  unfold BitAt LevelDB.setBit at *
  rw [getD_eq_getElem?_getD] at h ⊢
  rw [getElem?_modify]
  cases hget : array[pos / 8]? with
  | none =>
    rw [hget] at h
    exact h
  | some x =>
    rw [hget] at h
    show (if 0 + q / 8 = pos / 8 then x ||| bitMask q else x) &&& bitMask pos ≠ 0
    split_ifs
    · rw [or_and_distrib]
      exact fun hzero => h (UInt8.or_eq_zero_iff.mp hzero).1
    · exact h

theorem bitAt_setBit {pos : Nat} (h : pos / 8 < array.length) :
    BitAt (setBit 0 pos array) pos := by
  unfold BitAt setBit
  rw [getD_eq_getElem?_getD, getElem?_modify, getElem?_eq_getElem h]
  show (if 0 + pos / 8 = pos / 8 then _ else _) &&& bitMask pos ≠ 0
  rw [if_pos (Nat.zero_add _), or_and_distrib, UInt8.and_self]
  exact fun hzero => bitMask_ne_zero pos (UInt8.or_eq_zero_iff.mp hzero).2

theorem length_setBit (initSize pos : Nat) (dst : Bytes) :
    (setBit initSize pos dst).length = dst.length := length_modify _ _ _

theorem setBit_append (pre : Bytes) (post : Bytes) {pos : Nat} (h : pos / 8 < array.length) :
    setBit pre.length pos (pre ++ array ++ post) = pre ++ setBit 0 pos array ++ post := by
  unfold setBit
  rw [Nat.zero_add]
  generalize pos / 8 = i at h
  induction pre with
  | nil =>
    rw [nil_append, nil_append, length_nil, Nat.zero_add]
    induction array generalizing i with
    | nil => exact absurd h (Nat.not_lt_zero i)
    | cons x array ih =>
      cases i with
      | zero => rfl
      | succ i => exact congrArg (x :: ·) (ih i (Nat.lt_of_succ_lt_succ h))
  | cons x pre ih =>
    rw [length_cons, Nat.succ_add]
    exact congrArg (x :: ·) ih

/-! ## Probes -/

section Probes

variable {bits : Nat} {delta : UInt32}

theorem pos_lt (hbits : bits = array.length * 8) (hpos : 0 < bits) (h : UInt32) :
    h.toNat % bits / 8 < array.length := by
  have hlt := Nat.mod_lt h.toNat hpos
  omega

theorem setProbes_append (delta : UInt32) (pre post : Bytes) (hpos : 0 < bits) (j : Nat)
    (h : UInt32) (hbits : bits = array.length * 8) :
    ∃ array', setProbes bits 0 delta j h array = some array' ∧ array'.length = array.length ∧
      setProbes bits pre.length delta j h (pre ++ array ++ post) =
        some (pre ++ array' ++ post) := by
  induction j generalizing h array with
  | zero => exact ⟨array, rfl, rfl, rfl⟩
  | succ j ih =>
    unfold setProbes
    rw [if_neg hpos.ne', if_neg hpos.ne', setBit_append pre post (pos_lt hbits hpos h)]
    have hlen := length_setBit 0 (h.toNat % bits) array
    obtain ⟨array', heq, hlen', happend⟩ := ih (h + delta) (hlen.symm ▸ hbits)
    exact ⟨array', heq, hlen'.trans hlen, happend⟩

theorem BitAt.setProbes {j : Nat} {h : UInt32} {array array' : Bytes}
    (hset : setProbes bits 0 delta j h array = some array') {pos : Nat} (hbit : BitAt array pos) :
    BitAt array' pos := by
  induction j generalizing h array with
  | zero => exact Option.some.inj hset ▸ hbit
  | succ j ih =>
    unfold LevelDB.setProbes at hset
    split_ifs at hset
    exact ih hset (hbit.setBit _)

theorem testProbes_succ {j : Nat} {h : UInt32} :
    testProbes bits array delta (j + 1) h = true ↔
      BitAt array (h.toNat % bits) ∧ testProbes bits array delta j (h + delta) = true := by
  unfold BitAt
  rw [testProbes]
  split_ifs with hzero
  · exact iff_of_false not_false fun hand => hand.1 hzero
  · exact (and_iff_right hzero).symm

theorem testProbes_mono {array array' : Bytes} (hmono : ∀ pos, BitAt array pos → BitAt array' pos)
    {j : Nat} {h : UInt32} (htest : testProbes bits array delta j h = true) :
    testProbes bits array' delta j h = true := by
  induction j generalizing h with
  | zero => rfl
  | succ j ih =>
    obtain ⟨hbit, htest⟩ := testProbes_succ.mp htest
    exact testProbes_succ.mpr ⟨hmono _ hbit, ih htest⟩

theorem testProbes_of_setProbes (hpos : 0 < bits) {j : Nat} {h : UInt32} {array array' : Bytes}
    (hbits : bits = array.length * 8) (hset : setProbes bits 0 delta j h array = some array') :
    testProbes bits array' delta j h = true := by
  induction j generalizing h array with
  | zero => rfl
  | succ j ih =>
    unfold setProbes at hset
    rw [if_neg hpos.ne'] at hset
    have hlen := length_setBit 0 (h.toNat % bits) array
    exact testProbes_succ.mpr ⟨(bitAt_setBit (pos_lt hbits hpos h)).setProbes hset,
      ih (hlen.symm ▸ hbits) hset⟩

end Probes

/-! ## Filters -/

namespace BloomFilterPolicy

variable (p : BloomFilterPolicy)

theorem foldlM_addKey (pre post : Bytes) {bits : Nat} (hpos : 0 < bits) (keys : List Bytes)
    (hbits : bits = array.length * 8) :
    ∃ array', keys.foldlM (p.addKey bits pre.length) (pre ++ array ++ post) =
        some (pre ++ array' ++ post) ∧ array'.length = array.length ∧
      (∀ pos, BitAt array pos → BitAt array' pos) ∧
      ∀ key ∈ keys, testProbes bits array' (bloomDelta (bloomHash key)) p.k (bloomHash key) =
        true := by
  induction keys generalizing array with
  | nil => exact ⟨array, rfl, rfl, fun _ h => h, fun _ h => absurd h not_mem_nil⟩
  | cons key keys ih =>
    obtain ⟨array₁, hset, hlen₁, happend⟩ := setProbes_append (bloomDelta (bloomHash key)) pre post
      hpos p.k (bloomHash key) hbits
    obtain ⟨array', hfold, hlen', hmono, htest⟩ := ih (hlen₁.symm ▸ hbits)
    refine ⟨array', ?_, hlen'.trans hlen₁, fun pos h => hmono pos (h.setProbes hset), ?_⟩
    · rw [foldlM_cons]
      show (setProbes _ _ _ _ _ _).bind _ = _
      rw [happend]
      exact hfold
    · intro k hk
      obtain rfl | hk := mem_cons.mp hk
      · exact testProbes_mono hmono (testProbes_of_setProbes hpos hbits hset)
      · exact htest k hk

theorem numBytes_spec {n : Nat} (h : n * p.bitsPerKey % 2 ^ 64 ≤ 2 ^ 64 - 8) :
    8 ≤ p.numBytes n ∧ p.numBytes n * 8 < 2 ^ 64 := by
  unfold numBytes
  dsimp only
  split_ifs with hsmall
  · decide
  · rw [Nat.mod_eq_of_lt (by omega)]
    omega

theorem numBytes_eq_zero {n : Nat} (h : ¬ n * p.bitsPerKey % 2 ^ 64 ≤ 2 ^ 64 - 8) :
    p.numBytes n = 0 := by
  unfold numBytes
  dsimp only
  rw [if_neg (by omega)]
  omega

theorem createFilter_eq_none {keys : List Bytes} (hne : keys ≠ [])
    (hzero : p.numBytes keys.length = 0) (dst : Bytes) : p.createFilter keys dst = none := by
  unfold createFilter
  dsimp only
  rw [hzero]
  obtain ⟨key, rest, rfl⟩ := exists_cons_of_ne_nil hne
  obtain ⟨j, hj⟩ := Nat.exists_eq_add_of_le' p.one_le_k
  have hfirst : ∀ array, p.addKey (0 * 8) dst.length array key = none := by
    intro array
    unfold addKey
    rw [hj]
    exact if_pos (Nat.zero_mul 8)
  rw [foldlM_cons, hfirst]
  rfl

theorem bitAt_append (post : Bytes) {pos : Nat} (h : BitAt array pos) :
    BitAt (array ++ post) pos := by
  unfold BitAt at *
  rw [getD_eq_getElem?_getD] at h ⊢
  by_cases hlt : pos / 8 < array.length
  · rw [getElem?_append_left hlt]
    exact h
  · rw [getElem?_eq_none (not_lt.mp hlt)] at h
    exact absurd (UInt8.zero_and) h

/-- **The filter**: the array and the number of probes, after what was there before. -/
theorem createFilter_eq {keys : List Bytes}
    (h : keys.length * p.bitsPerKey % 2 ^ 64 ≤ 2 ^ 64 - 8) (dst : Bytes) :
    ∃ array, p.createFilter keys dst = some (dst ++ (array ++ [UInt8.ofNat p.k])) ∧
      array.length = p.numBytes keys.length ∧ ∀ key ∈ keys,
        testProbes (array.length * 8) array (bloomDelta (bloomHash key)) p.k (bloomHash key) =
          true := by
  obtain ⟨hpos, -⟩ := p.numBytes_spec h
  have hbits : p.numBytes keys.length * 8 =
      (List.replicate (p.numBytes keys.length) (0 : UInt8)).length * 8 := by
    rw [length_replicate]
  obtain ⟨array, hfold, hlen, -, htest⟩ := p.foldlM_addKey dst [UInt8.ofNat p.k] (by omega) keys
    hbits
  rw [length_replicate] at hlen
  refine ⟨array, ?_, hlen, hlen.symm ▸ htest⟩
  rw [← append_assoc]
  exact hfold

theorem keyMayMatch_eq (reader : BloomFilterPolicy) (key : Bytes) (hpos : 0 < array.length)
    (hlt : array.length * 8 < 2 ^ 64) :
    reader.keyMayMatch key (array ++ [UInt8.ofNat p.k]) =
      testProbes (array.length * 8) (array ++ [UInt8.ofNat p.k]) (bloomDelta (bloomHash key)) p.k
        (bloomHash key) := by
  have hk : (UInt8.ofNat p.k).toNat = p.k :=
    UInt8.toNat_ofNat_of_lt' (p.k_le_thirty.trans_lt (by decide))
  have hlast : (array ++ [UInt8.ofNat p.k]).getD array.length 0 = UInt8.ofNat p.k := by
    rw [getD_eq_getElem?_getD, getElem?_append_right le_rfl, Nat.sub_self]
    rfl
  unfold keyMayMatch
  dsimp only
  rw [length_append, length_singleton, Nat.add_sub_cancel, hlast, hk,
    if_neg (by omega), if_neg (not_lt.mpr p.k_le_thirty), Nat.mod_eq_of_lt hlt]

end BloomFilterPolicy

/-- **Bloom filters have no false negatives** as long as the rounding up of the number of bits
    does not wrap around: the filter is appended, and every reader finds all keys. -/
theorem bloom_no_false_negatives_iff (p : BloomFilterPolicy) (keys : List Bytes) (dst : Bytes) :
    (∃ filter, p.createFilter keys dst = some (dst ++ filter) ∧
      ∀ reader : BloomFilterPolicy, ∀ key ∈ keys, reader.keyMayMatch key filter = true) ↔
      keys.length * p.bitsPerKey % 2 ^ 64 ≤ 2 ^ 64 - 8 := by
  constructor
  · intro ⟨filter, hcreate, _⟩
    by_contra hwrap
    have hne : keys ≠ [] := by
      intro hnil
      rw [hnil, length_nil, Nat.zero_mul] at hwrap
      exact hwrap (by decide)
    rw [p.createFilter_eq_none hne (p.numBytes_eq_zero hwrap)] at hcreate
    cases hcreate
  · intro h
    obtain ⟨hpos, hlt⟩ := p.numBytes_spec h
    obtain ⟨array, hcreate, hlen, htest⟩ := p.createFilter_eq h dst
    refine ⟨array ++ [UInt8.ofNat p.k], hcreate, fun reader key hkey => ?_⟩
    rw [p.keyMayMatch_eq reader key (by omega) (hlen.symm ▸ hlt)]
    exact testProbes_mono (fun pos => BloomFilterPolicy.bitAt_append _) (htest key hkey)

/-- A policy with ten bits for a key, as `NewBloomFilterPolicy(10)` makes it. -/
def tenBits : BloomFilterPolicy := ⟨10, 6, by decide, by decide⟩

theorem bloom_no_false_negatives_hello :
    ∃ filter, tenBits.createFilter ["hello".toUTF8.toList, "world".toUTF8.toList] [7] =
        some ([7] ++ filter) ∧
      (⟨20, 13, by decide, by decide⟩ : BloomFilterPolicy).keyMayMatch "world".toUTF8.toList filter =
        true := by
  obtain ⟨filter, hcreate, hmatch⟩ := (bloom_no_false_negatives_iff tenBits
    ["hello".toUTF8.toList, "world".toUTF8.toList] [7]).mpr (by decide)
  exact ⟨filter, hcreate, hmatch _ _ (mem_cons_of_mem _ mem_cons_self)⟩

/-- 2142470067 bits for each of 8610035845 keys are `2 ^ 64 - 1` bits. -/
theorem bloom_bits_wrap :
    (⟨2142470067, 30, by decide, by decide⟩ : BloomFilterPolicy).createFilter
      (List.replicate 8610035845 []) [] = none := by
  apply BloomFilterPolicy.createFilter_eq_none
  · intro hnil
    have hlen := congrArg List.length hnil
    rw [length_replicate] at hlen
    exact absurd hlen (by decide)
  · apply BloomFilterPolicy.numBytes_eq_zero
    rw [length_replicate]
    decide

end LevelDB
