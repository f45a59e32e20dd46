/-
  Streams of numbers and strings (`util/coding.h`, `util/coding.cc`).

  The readers also take bytes that no writer has written: `varintBytes` are those that they
  consume, and `denoted` is the number these bytes stand for.
-/
import LevelDB.Util.Coding

namespace LevelDB

open List Option

/-! ## What has been written -/

def varintLength (v : Nat) : Nat := if 128 ≤ v then varintLength (v >>> 7) + 1 else 1
termination_by v
decreasing_by
  rw [Nat.shiftRight_eq_div_pow]
  omega

theorem encodeVarintLoop_spec {turns v : Nat} (hturns : 0 < turns) (hv : v < 2 ^ (7 * turns)) :
    (encodeVarintLoop turns v).length = varintLength v ∧
      ∀ more, encodeVarintLoop (turns + more) v = encodeVarintLoop turns v := by
  induction turns generalizing v with
  | zero => omega
  | succ turns ih =>
    rw [varintLength, encodeVarintLoop]
    by_cases hbig : 128 ≤ v
    · have hpos : 0 < turns := by
        rcases Nat.eq_zero_or_pos turns with rfl | hpos
        · omega
        · exact hpos
      have hhigh : v >>> 7 < 2 ^ (7 * turns) := by
        rw [Nat.shiftRight_eq_div_pow, Nat.div_lt_iff_lt_mul (by decide), ← pow_add]
        exact hv
      obtain ⟨hlen, hmore⟩ := ih hpos hhigh
      rw [if_pos hbig, if_pos hbig, length_cons, hlen]
      refine ⟨rfl, fun more => ?_⟩
      rw [Nat.succ_add, encodeVarintLoop, if_pos hbig, hmore]
    · rw [if_neg hbig, if_neg hbig]
      refine ⟨rfl, fun more => ?_⟩
      rw [Nat.succ_add, encodeVarintLoop, if_neg hbig]

inductive CodingItem where
  | varint32 (v : Nat)
  | varint64 (v : Nat)
  | slice (value : Bytes)
  deriving DecidableEq

namespace CodingItem

def Fits : CodingItem → Prop
  | varint32 v => v < 2 ^ 32
  | varint64 v => v < 2 ^ 64
  | slice value => value.length < 2 ^ 32

/-- `PutVarint32`, `PutVarint64` and `PutLengthPrefixedSlice`. -/
def put : CodingItem → Bytes
  | varint32 v => encodeVarint32 v
  | varint64 v => encodeVarint64 v
  | slice value => putLengthPrefixedSlice value

def get : CodingItem → Bytes → Option (CodingItem × Bytes)
  | varint32 _, input => (getVarint32 input).map (Prod.map varint32 id)
  | varint64 _, input => (getVarint64 input).map (Prod.map varint64 id)
  | slice _, input => (getLengthPrefixedSlice input).map (Prod.map slice id)

theorem get_put {item : CodingItem} (h : item.Fits) (rest : Bytes) :
    item.get (item.put ++ rest) = some (item, rest) := by
  cases item with
  | varint32 v => rw [put, get, getVarint32_encodeVarint32 h]; rfl
  | varint64 v => rw [put, get, getVarint64_encodeVarint64 h]; rfl
  | slice value => rw [put, get, getLengthPrefixedSlice_put h]; rfl

/-- Reading items of the kinds of `items`, one after the other. -/
def getAll : List CodingItem → Bytes → Option (List CodingItem × Bytes)
  | [], input => some ([], input)
  | item :: items, input =>
    (item.get input).bind fun (x, input) => (getAll items input).map (Prod.map (x :: ·) id)

end CodingItem

/-- **Streams are read back**, and leave what follows. The two encoders agree, and write as many
    bytes as `VarintLength` says. -/
theorem coding_stream :
    (∀ (items : List CodingItem) (rest : Bytes), (∀ item ∈ items, item.Fits) →
      CodingItem.getAll items (items.flatMap CodingItem.put ++ rest) = some (items, rest)) ∧
    (∀ v < 2 ^ 32, encodeVarint32 v = encodeVarint64 v ∧
      (encodeVarint32 v).length = varintLength v) ∧
    ∀ v < 2 ^ 64, (encodeVarint64 v).length = varintLength v := by
  refine ⟨?_, ?_, ?_⟩
  · intro items rest hfits
    induction items with
    | nil => rfl
    | cons item items ih =>
      rw [forall_mem_cons] at hfits
      rw [flatMap_cons, append_assoc, CodingItem.getAll, CodingItem.get_put hfits.1]
      show (CodingItem.getAll items _).map _ = _
      rw [ih hfits.2]
      rfl
  · intro v hv
    obtain ⟨hlen, hmore⟩ := @encodeVarintLoop_spec 5 v (by decide) (by omega)
    rw [encodeVarint32_eq hv]
    exact ⟨(hmore 5).symm, hlen⟩
  · intro v hv
    exact (@encodeVarintLoop_spec 10 v (by decide) (by omega)).1

/-! ## Arbitrary bytes -/

/-- The bytes of an integer at the front of the input, up to the first one that is not marked, and
    the rest. There are at most `turns` of them. -/
def varintBytes : Nat → Bytes → Option (Bytes × Bytes)
  | 0, _ => none
  | _ + 1, [] => none
  | turns + 1, b :: rest =>
    if b.toNat &&& 128 ≠ 0 then (varintBytes turns rest).map (Prod.map (b :: ·) id)
    else some ([b], rest)

def denoted : Bytes → Nat
  | [] => 0
  | b :: rest => (b.toNat &&& 127) + 128 * denoted rest

theorem varintBytes_append {turns : Nat} {input groups rest : Bytes}
    (h : varintBytes turns input = some (groups, rest)) : input = groups ++ rest ∧ groups ≠ [] := by
  induction turns generalizing input groups with
  | zero => cases h
  | succ turns ih =>
    cases input with
    | nil => cases h
    | cons b input =>
      rw [varintBytes] at h
      split_ifs at h
      · obtain ⟨⟨g, r⟩, hg, heq⟩ := map_eq_some_iff.mp h
        obtain ⟨rfl, rfl⟩ := Prod.mk.inj heq
        exact ⟨congrArg (b :: ·) (ih hg).1, cons_ne_nil _ _⟩
      · obtain ⟨rfl, rfl⟩ := Prod.mk.inj (Option.some.inj h)
        exact ⟨rfl, cons_ne_nil _ _⟩

theorem getVarintLoop_eq_denoted {w turns shift result : Nat} (hw : shift + 7 * turns ≤ w + 6)
    (hresult : result < 2 ^ shift) (input : Bytes) :
    getVarintLoop w turns shift result input = (varintBytes turns input).map fun (groups, rest) =>
      ((result + denoted groups * 2 ^ shift) % 2 ^ w, rest) := by
  induction turns generalizing shift result input with
  | zero => rfl
  | succ turns ih =>
    cases input with
    | nil => rfl
    | cons b input =>
      -- the bits of a group are put above those that are there, as far as the width goes
      have hput : ∀ x, result ||| (x <<< shift) % 2 ^ w = result + (x * 2 ^ shift) % 2 ^ w ∧
          result + (x * 2 ^ shift) % 2 ^ w < 2 ^ w := by
        intro x
        have hdvd : 2 ^ shift ∣ 2 ^ w := pow_dvd_pow 2 (by omega)
        obtain ⟨k, hk⟩ : 2 ^ shift ∣ (x * 2 ^ shift) % 2 ^ w :=
          (Nat.dvd_mod_iff hdvd).mpr (Dvd.intro_left x rfl)
        obtain ⟨l, hl⟩ := hdvd
        have hlt : (x * 2 ^ shift) % 2 ^ w < 2 ^ w := Nat.mod_lt _ (Nat.two_pow_pos w)
        rw [hk, hl] at hlt
        have hkl : k + 1 ≤ l := Nat.lt_of_mul_lt_mul_left hlt
        rw [Nat.shiftLeft_eq, hk]
        refine ⟨by rw [Nat.mul_comm, or_mul_pow hresult], ?_⟩
        calc result + 2 ^ shift * k < 2 ^ shift * (k + 1) := by rw [Nat.mul_succ]; omega
          _ ≤ 2 ^ w := hl ▸ Nat.mul_le_mul_left _ hkl
      have hmask : b.toNat &&& 127 < 128 := Nat.lt_succ_of_le Nat.and_le_right
      have hle : ((b.toNat &&& 127) * 2 ^ shift) % 2 ^ w ≤ 127 * 2 ^ shift :=
        (Nat.mod_le _ _).trans (Nat.mul_le_mul_right _ (by omega))
      rw [getVarintLoop, varintBytes]
      split_ifs with hmark
      · rw [(hput _).1, ih (by omega) (by rw [pow_add]; omega), Option.map_map]
        congr 1
        funext found
        obtain ⟨groups, rest⟩ := found
        refine Prod.ext ?_ rfl
        show (result + (b.toNat &&& 127) * 2 ^ shift % 2 ^ w + denoted groups * 2 ^ (shift + 7)) %
          2 ^ w = (result + denoted (b :: groups) * 2 ^ shift) % 2 ^ w
        rw [Nat.add_right_comm, Nat.add_mod_mod, denoted, pow_add]
        congr 1
        ring
      · have hlast : b.toNat &&& 127 = b.toNat := by
          have hbyte : ∀ x < 256, ¬(x &&& 128 ≠ 0) → x &&& 127 = x := by decide +kernel
          exact hbyte _ b.toNat_lt hmark
        refine congrArg some (Prod.ext ?_ rfl)
        show result ||| (b.toNat <<< shift) % 2 ^ w = (result + denoted [b] * 2 ^ shift) % 2 ^ w
        rw [(hput _).1, denoted, denoted, Nat.mul_zero, Nat.add_zero, hlast,
          ← Nat.mod_eq_of_lt (hput b.toNat).2, Nat.add_mod_mod]

theorem getVarint32_eq_denoted (input : Bytes) : getVarint32 input =
    (varintBytes 5 input).map fun (groups, rest) => (denoted groups % 2 ^ 32, rest) := by
  rw [getVarint32_eq, getVarintLoop_eq_denoted (by decide) (by decide)]
  simp only [Nat.zero_add, pow_zero, Nat.mul_one]

theorem getVarint64_eq_denoted (input : Bytes) : getVarint64 input =
    (varintBytes 10 input).map fun (groups, rest) => (denoted groups % 2 ^ 64, rest) := by
  rw [getVarint64, getVarintLoop_eq_denoted (by decide) (by decide)]
  simp only [Nat.zero_add, pow_zero, Nat.mul_one]

/-- What a call of `GetVarint32` or `GetVarint64` leaves of its input. -/
def varintInput (get : Bytes → Option (Nat × Bytes)) (input : Bytes) : Bytes :=
  match get input with
  | none => input
  | some (_, rest) => rest

/-- What `GetLengthPrefixedSlice` leaves of its input: the length is gone when the string is too
    short. -/
def getLengthPrefixedSliceInput (input : Bytes) : Bytes :=
  match getVarint32 input with
  | none => input
  | some (len, input) => if input.length < len then input else input.drop len

/-- A number is returned only if the bytes consumed denote it, and no number leaves the input. -/
def NumberKept (get : Bytes → Option (Nat × Bytes)) (input : Bytes) : Prop :=
  (∀ v, (get input).map Prod.fst = some v →
    ∃ consumed, input = consumed ++ varintInput get input ∧ denoted consumed = v) ∧
  (get input = none → varintInput get input = input)

def SliceKept (input : Bytes) : Prop :=
  getLengthPrefixedSlice input = none → getLengthPrefixedSliceInput input = input

theorem numberKept_iff {get : Bytes → Option (Nat × Bytes)} {turns w : Nat} {input : Bytes}
    (hget : get input = (varintBytes turns input).map fun (groups, rest) =>
      (denoted groups % 2 ^ w, rest)) :
    NumberKept get input ↔
      ∀ groups rest, varintBytes turns input = some (groups, rest) → denoted groups < 2 ^ w := by
  cases hbytes : varintBytes turns input with
  | none =>
    rw [hbytes, map_none] at hget
    simp [NumberKept, varintInput, hget]
  | some p =>
    obtain ⟨groups, rest⟩ := p
    rw [hbytes, map_some] at hget
    have hinput := (varintBytes_append hbytes).1
    simp only [NumberKept, varintInput, hget, map_some, Option.some.injEq, forall_eq',
      reduceCtorEq, false_implies, and_true, Prod.mk.injEq, and_imp, forall_apply_eq_imp_iff]
    constructor
    · rintro ⟨consumed, hconsumed, hv⟩
      rw [hinput, append_left_inj] at hconsumed
      rw [hconsumed, hv]
      exact Nat.mod_lt _ (Nat.two_pow_pos w)
    · intro hlt
      exact ⟨groups, hinput, (Nat.mod_eq_of_lt hlt).symm⟩

/-- **Bytes that nobody has written.** Numbers are kept, and calls that fail leave their input,
    exactly when what is denoted fits in 32 and 64 bits, and a string is as long as announced. -/
theorem decoding_exact_iff (input : Bytes) :
    (NumberKept getVarint32 input ∧ NumberKept getVarint64 input ∧ SliceKept input) ↔
      (∀ groups rest, varintBytes 5 input = some (groups, rest) →
        denoted groups < 2 ^ 32 ∧ denoted groups ≤ rest.length) ∧
      ∀ groups rest, varintBytes 10 input = some (groups, rest) → denoted groups < 2 ^ 64 := by
  have hslice : (∀ groups rest, varintBytes 5 input = some (groups, rest) →
      denoted groups < 2 ^ 32) → (SliceKept input ↔
        ∀ groups rest, varintBytes 5 input = some (groups, rest) →
          denoted groups ≤ rest.length) := by
    intro hlt
    rw [SliceKept, getLengthPrefixedSlice, getLengthPrefixedSliceInput, getVarint32_eq_denoted]
    cases hbytes : varintBytes 5 input with
    | none => simp
    | some p =>
      obtain ⟨groups, rest⟩ := p
      obtain ⟨hinput, hne⟩ := varintBytes_append hbytes
      have hrest : rest ≠ input := by
        rw [hinput]
        exact fun h => hne (self_eq_append_left.mp h)
      simp only [map_some, Option.some.injEq, Prod.mk.injEq, and_imp,
        Nat.mod_eq_of_lt (hlt _ _ hbytes)]
      by_cases hshort : rest.length < denoted groups
      · simp [hshort, hrest]
      · simp [hshort, not_lt.mp hshort]
  rw [numberKept_iff (getVarint32_eq_denoted input), numberKept_iff (getVarint64_eq_denoted input)]
  constructor
  · rintro ⟨h32, h64, hs⟩
    exact ⟨fun groups rest h => ⟨h32 _ _ h, (hslice h32).mp hs _ _ h⟩, h64⟩
  · rintro ⟨h32, h64⟩
    have hlt := fun groups rest h => (h32 groups rest h).1
    exact ⟨hlt, h64, (hslice hlt).mpr fun groups rest h => (h32 groups rest h).2⟩

/-- `ff ff ff ff 7f` denotes `2 ^ 35 - 1`, and is read as `2 ^ 32 - 1`. A tenth byte of `02` denotes
    `2 ^ 64`, which is read as nothing but zeros. A length of five with one byte after it is
    consumed by a call that fails. -/
theorem decoding_cut :
    (getVarint32 [0xff, 0xff, 0xff, 0xff, 0x7f] = some (2 ^ 32 - 1, []) ∧
      ¬NumberKept getVarint32 [0xff, 0xff, 0xff, 0xff, 0x7f]) ∧
    (getVarint64 (List.replicate 9 0x80 ++ [0x02]) = some (0, []) ∧
      ¬NumberKept getVarint64 (List.replicate 9 0x80 ++ [0x02])) ∧
    getLengthPrefixedSlice [5, 1] = none ∧ getLengthPrefixedSliceInput [5, 1] = [1] := by
  refine ⟨⟨by decide +kernel, ?_⟩, ⟨by decide +kernel, ?_⟩, by decide +kernel, by decide +kernel⟩
  · rw [numberKept_iff (getVarint32_eq_denoted _)]
    exact fun h => absurd (h [0xff, 0xff, 0xff, 0xff, 0x7f] [] (by decide +kernel)) (by decide)
  · rw [numberKept_iff (getVarint64_eq_denoted _)]
    exact fun h => absurd (h (List.replicate 9 0x80 ++ [0x02]) [] (by decide +kernel)) (by decide)

end LevelDB
