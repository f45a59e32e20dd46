/-
  Internal keys (`db/dbformat.h`, `db/dbformat.cc`) and `Status`.

  The user comparator is a linear order on the type `K` of user keys; `InternalKeyComparator`
  orders by user key and, for one user key, by decreasing tag, so that newer entries come first.
  Keys of fewer than 8 bytes have no tag and are not values of `InternalKey`; the byte form is in
  `LevelDB.Coding`.
-/
import Mathlib.Data.Prod.Lex
import Mathlib.Order.OrderDual
import Mathlib.Order.Lattice
import Mathlib.Order.Compare
import Mathlib.Tactic.Common
import LevelDB.Lib.Multiversion

namespace LevelDB

open Option

/-! ## Status -/

/-- `enum class StatusCode`. -/
inductive StatusCode where
  | ok
  | notFound
  | corruption
  | notSupported
  | invalidArgument
  | ioError
  deriving DecidableEq, Repr

/-- `class Status`: a code and a message. A `Result<T>` is `Except Status T`. -/
structure Status where
  code : StatusCode
  message : String
  deriving DecidableEq, Repr

namespace Status

def notFoundErr (msg : String) : Status := ⟨.notFound, msg⟩

def corruptionErr (msg : String) : Status := ⟨.corruption, msg⟩

def invalidArgument (msg : String) : Status := ⟨.invalidArgument, msg⟩

def ioError (msg : String) : Status := ⟨.ioError, msg⟩

def isNotFound (s : Status) : Bool := s.code == .notFound

end Status

def orError {α : Type} (message : String) : Option α → Except Status α
  | some a => .ok a
  | none => .error (.corruptionErr message)

/-! ## Value types and tags -/

/-- `enum ValueType`: `kTypeDeletion = 0x0`, `kTypeValue = 0x1`. -/
inductive ValueType where
  | deletion
  | value
  deriving DecidableEq, Repr

def ValueType.toNat : ValueType → Nat
  | .deletion => 0
  | .value => 1

def kValueTypeForSeek : ValueType := .value

/-- `kMaxSequenceNumber = (0x1ull << 56) - 1`. -/
def kMaxSequenceNumber : Nat := (0x1 <<< 56) - 1

def packSequenceAndType (seq : Nat) (t : ValueType) : Nat :=
  (seq <<< 8) ||| t.toNat

theorem packSequenceAndType_eq (seq : Nat) (t : ValueType) :
    packSequenceAndType seq t = seq * 256 + t.toNat := by
  unfold packSequenceAndType
  have ht : t.toNat < 2 ^ 8 := by cases t <;> decide
  rw [← Nat.shiftLeft_add_eq_or_of_lt ht, Nat.shiftLeft_eq]

/-! ## Keys -/

/-- `struct ParsedInternalKey`. -/
structure ParsedInternalKey (K : Type) where
  userKey : K
  sequence : Nat
  type : ValueType
  deriving DecidableEq, Repr

/-- An internal key of at least 8 bytes: the user key and the fixed64 tag after it. -/
@[ext] structure InternalKey (K : Type) where
  userKey : K
  tag : Nat
  deriving DecidableEq, Repr

namespace InternalKey

variable {K : Type}

/-- `InternalKey(user_key, s, t)`, by `AppendInternalKey`. -/
def ofParsed (p : ParsedInternalKey K) : InternalKey K :=
  ⟨p.userKey, packSequenceAndType p.sequence p.type⟩

def sequence (k : InternalKey K) : Nat := k.tag >>> 8

/-- `Clear()`: the empty `rep_`. It is not the encoding of a key; the default user key
    stands for the one it has not got. -/
def cleared [Inhabited K] : InternalKey K := ⟨default, 0⟩

def WellFormed (k : InternalKey K) : Prop := k.tag &&& 0xff ≤ 1

instance (k : InternalKey K) : Decidable k.WellFormed := inferInstanceAs (Decidable (_ ≤ _))

theorem sequence_eq (k : InternalKey K) : k.sequence = k.tag / 256 := by
  unfold sequence
  rw [Nat.shiftRight_eq_div_pow]

theorem wellFormed_iff (k : InternalKey K) : k.WellFormed ↔ k.tag % 256 ≤ 1 := by
  unfold WellFormed
  rw [show (0xff : Nat) = 2 ^ 8 - 1 from rfl, Nat.and_two_pow_sub_one_eq_mod]

end InternalKey

/-- `ParseInternalKey`: `none` when the type byte is above `kTypeValue`. -/
def parseInternalKey {K : Type} (k : InternalKey K) : Option (ParsedInternalKey K) :=
  let c := k.tag &&& 0xff
  if c > ValueType.value.toNat then none
  else some ⟨k.userKey, k.tag >>> 8, if c = 0 then .deletion else .value⟩

section Parse

variable {K : Type}

theorem tag_and_ff (k : InternalKey K) : k.tag &&& 0xff = k.tag % 256 := by
  rw [show (0xff : Nat) = 2 ^ 8 - 1 from rfl, Nat.and_two_pow_sub_one_eq_mod]

theorem parseInternalKey_eq (k : InternalKey K) :
    parseInternalKey k =
      if 1 < k.tag % 256 then none
      else some ⟨k.userKey, k.tag / 256, if k.tag % 256 = 0 then .deletion else .value⟩ := by
  unfold parseInternalKey
  simp only [tag_and_ff, Nat.shiftRight_eq_div_pow]
  rfl

theorem parseInternalKey_ofParsed (p : ParsedInternalKey K) :
    parseInternalKey (InternalKey.ofParsed p) = some p := by
  obtain ⟨u, s, t⟩ := p
  rw [parseInternalKey_eq]
  have htag : (InternalKey.ofParsed ⟨u, s, t⟩).tag = s * 256 + t.toNat := packSequenceAndType_eq s t
  have ht : t.toNat ≤ 1 := by cases t <;> decide
  have hmod : (s * 256 + t.toNat) % 256 = t.toNat := by omega
  have hdiv : (s * 256 + t.toNat) / 256 = s := by omega
  rw [htag, hmod, hdiv]
  cases t <;> rfl

theorem parseInternalKey_eq_some_iff {k : InternalKey K} {p : ParsedInternalKey K} :
    parseInternalKey k = some p ↔ k = InternalKey.ofParsed p := by
  constructor
  · intro h
    obtain ⟨u, t⟩ := k
    rw [parseInternalKey_eq] at h
    dsimp only at h
    split_ifs at h with hc h0
    · injection h with h
      subst h
      have ht : t = packSequenceAndType (t / 256) .deletion := by
        rw [packSequenceAndType_eq]; simp only [ValueType.toNat]; omega
      exact congrArg (InternalKey.mk u) ht
    · injection h with h
      subst h
      have ht : t = packSequenceAndType (t / 256) .value := by
        rw [packSequenceAndType_eq]; simp only [ValueType.toNat]; omega
      exact congrArg (InternalKey.mk u) ht
  · rintro rfl
    exact parseInternalKey_ofParsed p

theorem wellFormed_iff_parse (k : InternalKey K) :
    k.WellFormed ↔ (parseInternalKey k).isSome := by
  rw [InternalKey.wellFormed_iff, parseInternalKey_eq]
  by_cases h : 1 < k.tag % 256
  · rw [if_pos h]; simp only [isSome_none, Bool.false_eq_true, iff_false]; omega
  · rw [if_neg h]; simp only [isSome_some, iff_true]; omega

theorem exists_parse {k : InternalKey K} (h : k.WellFormed) :
    ∃ p, parseInternalKey k = some p ∧ k = InternalKey.ofParsed p := by
  rw [wellFormed_iff_parse, isSome_iff_exists] at h
  obtain ⟨p, hp⟩ := h
  exact ⟨p, hp, parseInternalKey_eq_some_iff.mp hp⟩

@[simp] theorem ofParsed_userKey (p : ParsedInternalKey K) :
    (InternalKey.ofParsed p).userKey = p.userKey := rfl

@[simp] theorem ofParsed_tag (p : ParsedInternalKey K) :
    (InternalKey.ofParsed p).tag = packSequenceAndType p.sequence p.type := rfl

@[simp] theorem ofParsed_sequence (p : ParsedInternalKey K) :
    (InternalKey.ofParsed p).sequence = p.sequence := by
  rw [InternalKey.sequence_eq, ofParsed_tag, packSequenceAndType_eq]
  have ht : p.type.toNat ≤ 1 := by cases p.type <;> decide
  omega

theorem ofParsed_wellFormed (p : ParsedInternalKey K) :
    (InternalKey.ofParsed p).WellFormed := by
  rw [wellFormed_iff_parse, parseInternalKey_ofParsed]; rfl

end Parse

/-! ## The comparator -/

section Order

variable {K : Type} [LinearOrder K]

def InternalKey.compare (a b : InternalKey K) : Ordering :=
  match cmp a.userKey b.userKey with
  | .eq => if a.tag > b.tag then .lt else if a.tag < b.tag then .gt else .eq
  | r => r

def InternalKey.rank (k : InternalKey K) : K ×ₗ Natᵒᵈ :=
  toLex (k.userKey, OrderDual.toDual k.tag)

omit [LinearOrder K] in
theorem InternalKey.rank_injective : Function.Injective (InternalKey.rank (K := K)) := by
  rintro ⟨u, t⟩ ⟨u', t'⟩ h
  simp only [InternalKey.rank, EmbeddingLike.apply_eq_iff_eq, Prod.mk.injEq] at h
  obtain ⟨rfl, h⟩ := h
  rw [OrderDual.toDual_inj.mp h]

instance : LinearOrder (InternalKey K) :=
  LinearOrder.lift' InternalKey.rank InternalKey.rank_injective

theorem InternalKey.lt_iff (a b : InternalKey K) :
    a < b ↔ a.userKey < b.userKey ∨ a.userKey = b.userKey ∧ b.tag < a.tag := by
  change a.rank < b.rank ↔ _
  unfold InternalKey.rank
  rw [Prod.Lex.toLex_lt_toLex]
  rfl

theorem InternalKey.le_iff (a b : InternalKey K) :
    a ≤ b ↔ a.userKey < b.userKey ∨ a.userKey = b.userKey ∧ b.tag ≤ a.tag := by
  change a.rank ≤ b.rank ↔ _
  unfold InternalKey.rank
  rw [Prod.Lex.toLex_le_toLex]
  rfl

theorem InternalKey.userKey_mono {a b : InternalKey K} (h : a ≤ b) : a.userKey ≤ b.userKey := by
  rw [InternalKey.le_iff] at h
  rcases h with h | h
  · exact h.le
  · exact h.1.le

theorem InternalKey.lt_of_userKey_lt {a b : InternalKey K} (h : a.userKey < b.userKey) : a < b :=
  (InternalKey.lt_iff a b).mpr (Or.inl h)

theorem InternalKey.compare_eq_lt_iff (a b : InternalKey K) :
    a.compare b = .lt ↔ a < b := by
  rw [InternalKey.lt_iff]
  unfold InternalKey.compare
  rcases lt_trichotomy a.userKey b.userKey with h | h | h
  · rw [(cmp_eq_lt_iff _ _).mpr h]
    simp [h]
  · rw [(cmp_eq_eq_iff _ _).mpr h]
    simp only [h, lt_irrefl, true_and, false_or]
    split_ifs with h1 h2 <;> simp <;> omega
  · rw [(cmp_eq_gt_iff _ _).mpr h]
    simp [h.not_gt, h.ne']

theorem InternalKey.compare_eq_eq_iff (a b : InternalKey K) :
    a.compare b = .eq ↔ a = b := by
  obtain ⟨u, t⟩ := a
  obtain ⟨u', t'⟩ := b
  unfold InternalKey.compare
  rw [InternalKey.mk.injEq]
  rcases lt_trichotomy u u' with h | h | h
  · rw [(cmp_eq_lt_iff _ _).mpr h]
    simp [h.ne]
  · rw [(cmp_eq_eq_iff _ _).mpr h]
    simp only [h, true_and]
    split_ifs with h1 h2 <;> simp <;> omega
  · rw [(cmp_eq_gt_iff _ _).mpr h]
    simp [h.ne']

/-- `LookupKey(user_key, sequence).internal_key()`. -/
def lookupKey (k : K) (s : Nat) : InternalKey K :=
  ⟨k, packSequenceAndType s kValueTypeForSeek⟩

omit [LinearOrder K] in
@[simp] theorem lookupKey_userKey (k : K) (s : Nat) : (lookupKey k s).userKey = k := rfl

omit [LinearOrder K] in
theorem tag_le_lookup_iff {x : InternalKey K} (hx : x.WellFormed) (s : Nat) :
    x.tag ≤ packSequenceAndType s kValueTypeForSeek ↔ x.sequence ≤ s := by
  rw [InternalKey.wellFormed_iff] at hx
  rw [packSequenceAndType_eq, InternalKey.sequence_eq]
  simp only [kValueTypeForSeek, ValueType.toNat]
  omega

theorem lookupKey_le_iff {x : InternalKey K} (hx : x.WellFormed) (k : K) (s : Nat) :
    lookupKey k s ≤ x ↔ k < x.userKey ∨ k = x.userKey ∧ x.sequence ≤ s := by
  rw [InternalKey.le_iff, ← tag_le_lookup_iff hx]
  rfl

end Order

/-! ## Entries and reads -/

structure Entry (K V : Type) where
  key : InternalKey K
  value : V
  deriving DecidableEq, Repr

namespace Entry

variable {K V : Type}

def userKey (e : Entry K V) : K := e.key.userKey

def tag (e : Entry K V) : Nat := e.key.tag

def sequence (e : Entry K V) : Nat := e.key.sequence

/-- The entry is a put of `v`. -/
def IsPut (e : Entry K V) (v : V) : Prop :=
  ∃ p, parseInternalKey e.key = some p ∧ p.type = .value ∧ e.value = v

def IsDeletion (e : Entry K V) : Prop :=
  ∃ p, parseInternalKey e.key = some p ∧ p.type = .deletion

/-- `e` is the entry of `k` in `S` with the largest sequence not above `s`. Two entries of
    one sequence and different types are ordered as `InternalKeyComparator` orders them. -/
def NewestAt (S : Set (Entry K V)) (k : K) (s : Nat) (e : Entry K V) : Prop :=
  e ∈ S ∧ e.userKey = k ∧ e.sequence ≤ s ∧
    ∀ x ∈ S, x.userKey = k → x.sequence ≤ s → x.tag ≤ e.tag

/-- A read of `k` at `s` over the entries `S` answers `v`. -/
def Visible (S : Set (Entry K V)) (k : K) (s : Nat) (v : V) : Prop :=
  ∃ e, NewestAt S k s e ∧ e.IsPut v

theorem sequence_le_of_tag_le {x e : Entry K V} (h : x.tag ≤ e.tag) : x.sequence ≤ e.sequence := by
  unfold sequence
  rw [InternalKey.sequence_eq, InternalKey.sequence_eq]
  exact Nat.div_le_div_right h

theorem tag_lt_of_sequence_lt {x e : Entry K V} (h : x.sequence < e.sequence) : x.tag < e.tag := by
  by_contra hle
  exact absurd (sequence_le_of_tag_le (not_lt.mp hle)) (not_le.mpr h)

theorem newestAt_iff {S : Set (Entry K V)} (hS : ∀ e ∈ S, e.key.WellFormed) {k : K}
    {s : Nat} {e : Entry K V} :
    NewestAt S k s e ↔
      Multiversion.Newest userKey tag S k (packSequenceAndType s kValueTypeForSeek) e := by
  have hle : ∀ x ∈ S, (x.tag ≤ packSequenceAndType s kValueTypeForSeek ↔ x.sequence ≤ s) :=
    fun x hx => tag_le_lookup_iff (hS x hx) s
  constructor
  · rintro ⟨he, hk, hs, hmax⟩
    exact ⟨he, hk, (hle e he).mpr hs, fun x hx hxk hxs => hmax x hx hxk ((hle x hx).mp hxs)⟩
  · rintro ⟨he, hk, hs, hmax⟩
    exact ⟨he, hk, (hle e he).mp hs, fun x hx hxk hxs => hmax x hx hxk ((hle x hx).mpr hxs)⟩

theorem not_isDeletion_of_isPut {e : Entry K V} {v : V} (h : e.IsPut v) : ¬ e.IsDeletion := by
  rintro ⟨q, hq, hd⟩
  obtain ⟨p, hp, hv, -⟩ := h
  rw [hp, Option.some.injEq] at hq
  subst hq
  rw [hv] at hd
  cases hd

theorem visible_congr {S S' : Set (Entry K V)} {k : K} {s : Nat}
    (h : ∀ e : Entry K V, e.userKey = k → e.sequence ≤ s → (e ∈ S ↔ e ∈ S')) (val : V) :
    Visible S k s val ↔ Visible S' k s val := by
  refine exists_congr fun e => and_congr_left fun _ => ?_
  constructor
  · intro ⟨he, hk, hs, hmax⟩
    exact ⟨(h e hk hs).mp he, hk, hs, fun x hx hxk hxs => hmax x ((h x hxk hxs).mpr hx) hxk hxs⟩
  · intro ⟨he, hk, hs, hmax⟩
    exact ⟨(h e hk hs).mpr he, hk, hs, fun x hx hxk hxs => hmax x ((h x hxk hxs).mp hx) hxk hxs⟩

theorem visible_iff_of_collected {S S' : Set (Entry K V)} (hwf : ∀ e ∈ S, e.key.WellFormed)
    {snap : Nat} (h : Multiversion.Collected userKey tag IsDeletion
      (packSequenceAndType snap kValueTypeForSeek) S S')
    (k : K) {s : Nat} (hs : snap ≤ s) (val : V) : Visible S k s val ↔ Visible S' k s val := by
  have hle : packSequenceAndType snap kValueTypeForSeek ≤
      packSequenceAndType s kValueTypeForSeek := by
    rw [packSequenceAndType_eq, packSequenceAndType_eq]
    omega
  refine exists_congr fun e => and_congr_left fun hput => ?_
  rw [newestAt_iff hwf, newestAt_iff fun e he => hwf e (h.sub he)]
  exact h.newest_iff hle (not_isDeletion_of_isPut hput) Multiversion.exists_newest

theorem isPut_or_isDeletion {e : Entry K V} (h : e.key.WellFormed) :
    e.IsPut e.value ∨ e.IsDeletion := by
  obtain ⟨p, hp, -⟩ := exists_parse h
  cases ht : p.type with
  | value => exact Or.inl ⟨p, hp, ht, rfl⟩
  | deletion => exact Or.inr ⟨p, hp, ht⟩

theorem lookup_iff {S : Set (Entry K V)} (hwf : ∀ e ∈ S, e.key.WellFormed)
    (hinj : ∀ a ∈ S, ∀ b ∈ S, a.userKey = b.userKey → a.tag = b.tag → a = b) {k : K} {s : Nat}
    {o : Option (Entry K V)} (hans : Multiversion.Answers userKey tag S k
      (packSequenceAndType s kValueTypeForSeek) o)
    {r : Except Status (Option V)} (hput : ∀ e ∈ o, ∀ val, e.IsPut val → r = .ok (some val))
    (hgone : (∀ e ∈ o, e.IsDeletion) → ∃ st, r = .error st ∧ st.isNotFound = true) :
    (∀ val, r = .ok (some val) ↔ Visible S k s val) ∧
    ((∃ st, r = .error st ∧ st.isNotFound = true) ↔
      (∃ e, NewestAt S k s e ∧ e.IsDeletion) ∨ ¬ ∃ e ∈ S, e.userKey = k ∧ e.sequence ≤ s) := by
  cases o with
  | none =>
    have habs : ¬ ∃ e ∈ S, e.userKey = k ∧ e.sequence ≤ s := by
      intro ⟨e, he, hek, hes⟩
      exact hans ⟨e, he, hek, (tag_le_lookup_iff (hwf e he) s).mpr hes⟩
    obtain ⟨st, rfl, hst⟩ := hgone (by simp)
    refine ⟨fun val => ⟨fun h => (nomatch h), ?_⟩, ⟨fun _ => Or.inr habs, fun _ => ⟨st, rfl, hst⟩⟩⟩
    intro ⟨e, ⟨he, hek, hes, _⟩, _⟩
    exact absurd ⟨e, he, hek, hes⟩ habs
  | some e =>
    have hnew : NewestAt S k s e := (newestAt_iff hwf).mpr hans
    have huniq : ∀ x, NewestAt S k s x → x = e := fun x hx =>
      Multiversion.Newest.unique hinj ((newestAt_iff hwf).mp hx) hans
    obtain hp | hd := isPut_or_isDeletion (hwf e hnew.1)
    · rw [hput e rfl _ hp]
      refine ⟨fun val => ⟨?_, ?_⟩, ⟨fun h => ?_, ?_⟩⟩
      · intro h
        injection h with h
        injection h with h
        exact ⟨e, hnew, h ▸ hp⟩
      · intro ⟨x, hx, q, _, _, hv⟩
        rw [← hv, huniq x hx]
      · obtain ⟨st, h, -⟩ := h
        cases h
      · intro h
        obtain ⟨x, hx, hd⟩ | h := h
        · rw [huniq x hx] at hd
          exact absurd hd (not_isDeletion_of_isPut hp)
        · exact absurd ⟨e, hnew.1, hnew.2.1, hnew.2.2.1⟩ h
    · obtain ⟨st, rfl, hst⟩ := hgone (by intro x hx; rw [← Option.some.inj hx]; exact hd)
      refine ⟨fun val => ⟨fun h => (nomatch h), ?_⟩,
        ⟨fun _ => Or.inl ⟨e, hnew, hd⟩, fun _ => ⟨st, rfl, hst⟩⟩⟩
      intro ⟨x, hx, hp⟩
      rw [huniq x hx] at hp
      exact absurd hd (not_isDeletion_of_isPut hp)

def valueType (e : Entry K V) : Option ValueType :=
  (parseInternalKey e.key).map ParsedInternalKey.type

theorem isPut_iff {e : Entry K V} {v : V} :
    e.IsPut v ↔ e.valueType = some .value ∧ e.value = v := by
  unfold IsPut valueType
  cases h : parseInternalKey e.key <;> simp

theorem parse_of_wellFormed {e : Entry K V} (h : e.key.WellFormed) :
    ∃ p, parseInternalKey e.key = some p ∧ p.userKey = e.userKey ∧ p.sequence = e.sequence ∧
      e.valueType = some p.type := by
  obtain ⟨p, hp, hkey⟩ := exists_parse h
  refine ⟨p, hp, ?_, ?_, ?_⟩
  · rw [userKey, hkey, ofParsed_userKey]
  · rw [sequence, hkey, ofParsed_sequence]
  · rw [valueType, hp, map_some]

section Order

variable [LinearOrder K]

theorem lookupKey_le_of_visible {e : Entry K V} (he : e.key.WellFormed) {k : K} {s : Nat}
    (hk : e.userKey = k) (hs : e.sequence ≤ s) : lookupKey k s ≤ e.key :=
  (lookupKey_le_iff he k s).mpr (Or.inr ⟨hk.symm, hs⟩)

theorem visible_of_lookupKey_le {e : Entry K V} (he : e.key.WellFormed) {k : K} {s : Nat}
    (hk : e.userKey = k) (hs : lookupKey k s ≤ e.key) : e.sequence ≤ s := by
  rcases (lookupKey_le_iff he k s).mp hs with h | h
  · exact absurd hk h.ne'
  · exact h.2

theorem tag_le_of_key_le {x e : Entry K V} (hu : x.userKey = e.userKey) (h : e.key ≤ x.key) :
    x.tag ≤ e.tag := by
  rcases (InternalKey.le_iff _ _).mp h with h | h
  · exact absurd hu h.ne'
  · exact h.2

end Order

end Entry
end LevelDB
