/-
  Numbers and byte strings on disk (`util/coding.h`, `util/coding.cc`): integers of fixed
  length, least significant byte first, integers of variable length with seven bits to a byte,
  and strings with their length in front.
-/
import LevelDB.Lib.LittleEndian

namespace LevelDB

open List LittleEndian

abbrev Bytes := List UInt8

def encodeFixed32 (value : UInt32) : Bytes := leBytes 4 value.toNat

/-- `DecodeFixed32`, from the first four bytes. -/
def decodeFixed32 (bytes : Bytes) : UInt32 := UInt32.ofNat (leNat (bytes.take 4))

@[simp] theorem length_encodeFixed32 (value : UInt32) : (encodeFixed32 value).length = 4 :=
  length_leBytes 4 _

@[simp] theorem decodeFixed32_encodeFixed32 (value : UInt32) (rest : Bytes) :
    decodeFixed32 (encodeFixed32 value ++ rest) = value := by
  unfold decodeFixed32
  rw [take_left' (length_encodeFixed32 value), encodeFixed32, leNat_leBytes,
    Nat.mod_eq_of_lt (show value.toNat < 256 ^ 4 from value.toNat_lt)]
  exact UInt32.ofNat_toNat

theorem drop_flatMap_encodeFixed32 {α : Type} (f : α → UInt32) {l : List α} {j : Nat} {a : α}
    (h : l[j]? = some a) (rest : Bytes) :
    decodeFixed32 (((l.flatMap fun x => encodeFixed32 (f x)) ++ rest).drop (j * 4)) = f a := by
  induction l generalizing j with
  | nil => cases h
  | cons x l ih =>
    rw [flatMap_cons, append_assoc]
    cases j with
    | zero =>
      obtain rfl := Option.some.inj h
      exact decodeFixed32_encodeFixed32 _ _
    | succ j =>
      rw [Nat.succ_mul, Nat.add_comm, ← drop_drop, drop_left' (length_encodeFixed32 _)]
      exact ih h

def encodeFixed64 (value : Nat) : Bytes := leBytes 8 value

/-- `DecodeFixed64`, from the first eight bytes. -/
def decodeFixed64 (bytes : Bytes) : Nat := leNat (bytes.take 8)

@[simp] theorem length_encodeFixed64 (value : Nat) : (encodeFixed64 value).length = 8 :=
  length_leBytes 8 _

theorem decodeFixed64_encodeFixed64 {value : Nat} (h : value < 2 ^ 64) (rest : Bytes) :
    decodeFixed64 (encodeFixed64 value ++ rest) = value := by
  unfold decodeFixed64
  rw [take_left' (length_encodeFixed64 value), encodeFixed64, leNat_leBytes,
    Nat.mod_eq_of_lt (show value < 256 ^ 8 from h)]

/-! ## Integers of variable length -/

/-- The loop of `EncodeVarint64`. -/
def encodeVarintLoop : Nat → Nat → Bytes
  | 0, _ => []
  | turns + 1, v =>
    if 128 ≤ v then UInt8.ofNat (v ||| 128) :: encodeVarintLoop turns (v >>> 7)
    else [UInt8.ofNat v]

/-- `EncodeVarint64`, into ten bytes at most. -/
def encodeVarint64 (v : Nat) : Bytes := encodeVarintLoop 10 v

def encodeVarint32 (v : Nat) : Bytes :=
  if v < 2 ^ 7 then [UInt8.ofNat v]
  else if v < 2 ^ 14 then [UInt8.ofNat (v ||| 128), UInt8.ofNat (v >>> 7)]
  else if v < 2 ^ 21 then
    [UInt8.ofNat (v ||| 128), UInt8.ofNat (v >>> 7 ||| 128), UInt8.ofNat (v >>> 14)]
  else if v < 2 ^ 28 then
    [UInt8.ofNat (v ||| 128), UInt8.ofNat (v >>> 7 ||| 128), UInt8.ofNat (v >>> 14 ||| 128),
      UInt8.ofNat (v >>> 21)]
  else
    [UInt8.ofNat (v ||| 128), UInt8.ofNat (v >>> 7 ||| 128), UInt8.ofNat (v >>> 14 ||| 128),
      UInt8.ofNat (v >>> 21 ||| 128), UInt8.ofNat (v >>> 28)]

/-- The loop of `GetVarint32PtrFallback` (`w = 32`, five turns) and of `GetVarint64Ptr`
    (`w = 64`, ten turns): the number and the rest of the input. -/
def getVarintLoop (w : Nat) : Nat → Nat → Nat → Bytes → Option (Nat × Bytes)
  | 0, _, _, _ => none
  | _ + 1, _, _, [] => none
  | turns + 1, shift, result, b :: rest =>
    if b.toNat &&& 128 ≠ 0 then
      getVarintLoop w turns (shift + 7) (result ||| ((b.toNat &&& 127) <<< shift) % 2 ^ w) rest
    else some (result ||| (b.toNat <<< shift) % 2 ^ w, rest)

/-- `GetVarint32`, with the short cut of `GetVarint32Ptr` for a single byte. -/
def getVarint32 (input : Bytes) : Option (Nat × Bytes) :=
  match input with
  | b :: rest => if b.toNat &&& 128 = 0 then some (b.toNat, rest) else getVarintLoop 32 5 0 0 input
  | [] => getVarintLoop 32 5 0 0 input

def getVarint64 (input : Bytes) : Option (Nat × Bytes) := getVarintLoop 64 10 0 0 input

theorem varint_byte (v : Nat) : (UInt8.ofNat (v ||| 128)).toNat &&& 128 ≠ 0 ∧
    (UInt8.ofNat (v ||| 128)).toNat &&& 127 = v % 128 := by
  have hbyte : ∀ x < 256, (x ||| 128) &&& 128 ≠ 0 ∧ (x ||| 128) &&& 127 = x % 128 := by
    decide +kernel
  obtain ⟨hmark, hbits⟩ := hbyte (v % 256) (Nat.mod_lt _ (by decide))
  have htoNat : (UInt8.ofNat (v ||| 128)).toNat = v % 256 ||| 128 := by
    rw [UInt8.toNat_ofNat', Nat.or_mod_two_pow (n := 8)]
  rw [htoNat]
  exact ⟨hmark, by rw [hbits]; omega⟩

theorem or_mul_pow {a b i : Nat} (h : b < 2 ^ i) : b ||| a * 2 ^ i = b + a * 2 ^ i := by
  rw [← Nat.shiftLeft_eq, Nat.or_comm, ← Nat.shiftLeft_add_eq_or_of_lt h, Nat.add_comm]

theorem getVarintLoop_encode {w turns shift result v : Nat} (hturns : 0 < turns)
    (hv : v < 2 ^ (7 * turns)) (hresult : result < 2 ^ shift) (hw : result + v * 2 ^ shift < 2 ^ w)
    (rest : Bytes) :
    getVarintLoop w turns shift result (encodeVarintLoop turns v ++ rest) =
      some (result + v * 2 ^ shift, rest) := by
  induction turns generalizing shift result v with
  | zero => omega
  | succ turns ih =>
    rw [encodeVarintLoop]
    split_ifs with hbig
    · obtain ⟨hmark, hbits⟩ := varint_byte v
      have hlow : v % 128 * 2 ^ shift < 2 ^ w := by
        have : v % 128 * 2 ^ shift ≤ v * 2 ^ shift := Nat.mul_le_mul_right _ (Nat.mod_le _ _)
        omega
      have hsplit : v * 2 ^ shift = v % 128 * 2 ^ shift + v / 128 * 2 ^ (shift + 7) := by
        rw [pow_add]
        conv_lhs => rw [← Nat.mod_add_div v 128]
        ring
      have hnext : result + v % 128 * 2 ^ shift < 2 ^ (shift + 7) := by
        have : v % 128 * 2 ^ shift ≤ 127 * 2 ^ shift :=
          Nat.mul_le_mul_right _ (by omega)
        rw [pow_add]
        omega
      have hpos : 0 < turns := by
        rcases Nat.eq_zero_or_pos turns with rfl | h
        · omega
        · exact h
      have hhigh : v / 128 < 2 ^ (7 * turns) := by
        rw [Nat.div_lt_iff_lt_mul (by decide)]
        rwa [Nat.mul_succ, pow_add] at hv
      rw [cons_append, getVarintLoop, if_pos hmark, hbits, Nat.shiftLeft_eq,
        Nat.mod_eq_of_lt hlow, or_mul_pow hresult, Nat.shiftRight_eq_div_pow,
        ih hpos hhigh hnext (by omega), hsplit, Nat.add_assoc]
    · have hbyte : (UInt8.ofNat v).toNat = v :=
        UInt8.toNat_ofNat_of_lt' (show v < 2 ^ 8 by omega)
      have hmark : ¬(v &&& 128 ≠ 0) := by
        have : ∀ x < 128, ¬(x &&& 128 ≠ 0) := by decide +kernel
        exact this v (by omega)
      rw [singleton_append, getVarintLoop, hbyte, if_neg hmark, Nat.shiftLeft_eq,
        Nat.mod_eq_of_lt (by omega), or_mul_pow hresult]

theorem getVarint64_encodeVarint64 {v : Nat} (h : v < 2 ^ 64) (rest : Bytes) :
    getVarint64 (encodeVarint64 v ++ rest) = some (v, rest) := by
  have hread : getVarintLoop 64 10 0 0 (encodeVarintLoop 10 v ++ rest) =
      some (0 + v * 2 ^ 0, rest) :=
    getVarintLoop_encode (by decide) (by omega) (by decide) (by omega) rest
  rwa [Nat.zero_add, pow_zero, Nat.mul_one] at hread

theorem encodeVarint32_eq {v : Nat} (h : v < 2 ^ 32) :
    encodeVarint32 v = encodeVarintLoop 5 v := by
  unfold encodeVarint32
  simp only [encodeVarintLoop, Nat.shiftRight_eq_div_pow, Nat.div_div_eq_div_mul, ← pow_add,
    Nat.reduceAdd]
  split_ifs <;> first | rfl | omega

theorem getVarint32_eq (input : Bytes) : getVarint32 input = getVarintLoop 32 5 0 0 input := by
  cases input with
  | nil => rfl
  | cons b rest =>
    rw [getVarint32]
    split_ifs with hlast
    · have hb : b.toNat < 2 ^ 32 := b.toNat_lt.trans (by decide)
      rw [getVarintLoop, if_neg (not_not.mpr hlast), Nat.shiftLeft_zero, Nat.mod_eq_of_lt hb,
        Nat.zero_or]
    · rfl

theorem getVarint32_encodeVarint32 {v : Nat} (h : v < 2 ^ 32) (rest : Bytes) :
    getVarint32 (encodeVarint32 v ++ rest) = some (v, rest) := by
  have hread : getVarintLoop 32 5 0 0 (encodeVarintLoop 5 v ++ rest) =
      some (0 + v * 2 ^ 0, rest) :=
    getVarintLoop_encode (by decide) (by omega) (by decide) (by omega) rest
  rwa [Nat.zero_add, pow_zero, Nat.mul_one, ← getVarint32_eq, ← encodeVarint32_eq h] at hread

theorem getVarintLoop_lt {w turns shift result : Nat} (hresult : result < 2 ^ w) {input : Bytes}
    {v : Nat} {rest : Bytes} (h : getVarintLoop w turns shift result input = some (v, rest)) :
    v < 2 ^ w := by
  induction turns generalizing shift result input with
  | zero => cases h
  | succ turns ih =>
    cases input with
    | nil => cases h
    | cons b input =>
      have hmod : ∀ n, result ||| n % 2 ^ w < 2 ^ w := fun n =>
        Nat.or_lt_two_pow hresult (Nat.mod_lt _ (Nat.two_pow_pos w))
      rw [getVarintLoop] at h
      split_ifs at h
      · exact ih (hmod _) h
      · rw [← (Prod.mk.inj (Option.some.inj h)).1]
        exact hmod _

theorem getVarint64_lt {input : Bytes} {v : Nat} {rest : Bytes}
    (h : getVarint64 input = some (v, rest)) : v < 2 ^ 64 :=
  getVarintLoop_lt (Nat.two_pow_pos 64) h

theorem getVarint32_lt {input : Bytes} {v : Nat} {rest : Bytes}
    (h : getVarint32 input = some (v, rest)) : v < 2 ^ 32 := by
  rw [getVarint32_eq] at h
  exact getVarintLoop_lt (Nat.two_pow_pos 32) h

/-! ## Strings with their length in front -/

def putLengthPrefixedSlice (value : Bytes) : Bytes :=
  encodeVarint32 (value.length % 2 ^ 32) ++ value

def getLengthPrefixedSlice (input : Bytes) : Option (Bytes × Bytes) :=
  match getVarint32 input with
  | none => none
  | some (len, input) =>
    if input.length < len then none else some (input.take len, input.drop len)

theorem getLengthPrefixedSlice_put {value : Bytes} (h : value.length < 2 ^ 32) (rest : Bytes) :
    getLengthPrefixedSlice (putLengthPrefixedSlice value ++ rest) = some (value, rest) := by
  unfold getLengthPrefixedSlice putLengthPrefixedSlice
  rw [Nat.mod_eq_of_lt h, append_assoc, getVarint32_encodeVarint32 h]
  dsimp only
  rw [if_neg (by rw [length_append]; omega), take_left, drop_left]

theorem getLengthPrefixedSlice_lt {input value rest : Bytes}
    (h : getLengthPrefixedSlice input = some (value, rest)) : value.length < 2 ^ 32 := by
  unfold getLengthPrefixedSlice at h
  cases hlen : getVarint32 input with
  | none => rw [hlen] at h; cases h
  | some p =>
    rw [hlen] at h
    dsimp only at h
    split_ifs at h
    have hlt := getVarint32_lt hlen
    rw [← (Prod.mk.inj (Option.some.inj h)).1, length_take]
    omega

/-! ## Texts -/

def textOf (bytes : Bytes) : String := String.ofList (bytes.map fun b => Char.ofNat b.toNat)

def bytesOf (text : String) : Bytes := text.toList.map fun c => UInt8.ofNat c.toNat

/-! ## User keys -/

/-- How user keys are stored. -/
structure KeyCodec (K : Type) where
  toBytes : K → Bytes
  ofBytes : Bytes → K
  ofBytes_toBytes : ∀ k, ofBytes (toBytes k) = k

/-- Bytes are compared as unsigned numbers, as `memcmp` does. -/
instance linearOrderUInt8 : LinearOrder UInt8 where
  le_refl := UInt8.le_refl
  le_trans := fun _ _ _ => UInt8.le_trans
  le_antisymm := fun _ _ => UInt8.le_antisymm
  le_total := UInt8.le_total
  lt_iff_le_not_ge := fun a b => by
    rw [UInt8.lt_iff_toNat_lt, UInt8.le_iff_toNat_le, UInt8.le_iff_toNat_le]
    omega
  toDecidableLE := inferInstance

def KeyCodec.bytes : KeyCodec Bytes := ⟨id, id, fun _ => rfl⟩

end LevelDB
