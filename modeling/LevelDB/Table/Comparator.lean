/-
  Comparators (`util/comparator.cc`, and `InternalKeyComparator` in `db/dbformat.cc`), with the
  keys that an index block is made of: a separator between two keys, and a successor of the last.
-/
import LevelDB.DbFormat
import LevelDB.Table.FilterBlock

namespace LevelDB

open List

/-- `class Comparator`. `findShortestSeparator` and `findShortSuccessor` return what they leave in
    their first argument. -/
structure Comparator where
  compare : Bytes → Bytes → Ordering
  findShortestSeparator : Bytes → Bytes → Bytes
  findShortSuccessor : Bytes → Bytes

/-! ## Byte strings -/

variable {a b : Bytes}

namespace Bytewise

/-- `BytewiseComparatorImpl::Compare`: the first byte that differs decides, and otherwise the
    length. -/
def compare : Bytes → Bytes → Ordering
  | [], [] => .eq
  | [], _ :: _ => .lt
  | _ :: _, [] => .gt
  | a :: as, b :: bs => if a < b then .lt else if b < a then .gt else compare as bs

/-- `BytewiseComparatorImpl::FindShortestSeparator`: past the common bytes, the first byte that
    differs is raised by one if this stays below the limit. -/
def findShortestSeparator : Bytes → Bytes → Bytes
  | a :: start, b :: limit =>
    if a = b then a :: findShortestSeparator start limit
    else if a < 0xff ∧ a.toNat + 1 < b.toNat then [a + 1]
    else a :: start
  | start, _ => start

/-- `BytewiseComparatorImpl::FindShortSuccessor`: the first byte that is not `0xff` is raised. -/
def findShortSuccessor : Bytes → Bytes
  | [] => []
  | b :: key => if b ≠ 0xff then [b + 1] else b :: findShortSuccessor key

/-- `BytewiseComparator`. -/
def comparator : Comparator := ⟨compare, findShortestSeparator, findShortSuccessor⟩

theorem compare_lt_iff : compare a b = .lt ↔ a < b := by
  fun_induction compare a b with
  | case1 => simp
  | case2 => simp
  | case3 => simp
  | case4 a as b bs h => simp [cons_lt_cons_iff, h]
  | case5 a as b bs h h' => simp [cons_lt_cons_iff, h, h'.ne']
  | case6 a as b bs h h' ih =>
    have heq : a = b := le_antisymm (not_lt.mp h') (not_lt.mp h)
    rw [ih, cons_lt_cons_iff]
    simp [heq]

theorem compare_eq_iff : compare a b = .eq ↔ a = b := by
  fun_induction compare a b with
  | case1 => simp
  | case2 => simp
  | case3 => simp
  | case4 a as b bs h => simp [h.ne]
  | case5 a as b bs h h' => simp [h'.ne']
  | case6 a as b bs h h' ih =>
    have heq : a = b := le_antisymm (not_lt.mp h') (not_lt.mp h)
    rw [ih, heq]
    simp

theorem toNat_add_one {a : UInt8} (h : a ≠ 0xff) : (a + 1).toNat = a.toNat + 1 := by
  have hlt : a.toNat < 255 := by
    have hle := a.toNat_lt
    have hne : a.toNat ≠ 255 := fun heq => h (UInt8.toNat_inj.mp heq)
    omega
  rw [UInt8.toNat_add]
  exact Nat.mod_eq_of_lt (show a.toNat + 1 < 256 by omega)

theorem lt_add_one {a : UInt8} (h : a ≠ 0xff) : a < a + 1 := by
  rw [UInt8.lt_iff_toNat_lt, toNat_add_one h]
  omega

theorem cons_le_cons (a : UInt8) {as bs : Bytes} (h : as ≤ bs) : a :: as ≤ a :: bs := by
  obtain h | h := h.lt_or_eq
  · exact (cons_lt_cons_iff.mpr (Or.inr ⟨rfl, h⟩) : a :: as < a :: bs).le
  · rw [h]

theorem findShortestSeparator_spec {start limit : Bytes} (h : start < limit) :
    start ≤ findShortestSeparator start limit ∧ findShortestSeparator start limit < limit := by
  fun_induction findShortestSeparator start limit with
  | case1 start a limit ih =>
    have hlt : start < limit := by
      rw [cons_lt_cons_iff] at h
      exact (h.resolve_left (lt_irrefl a)).2
    obtain ⟨hle, hlt⟩ := ih hlt
    exact ⟨cons_le_cons a hle, cons_lt_cons_iff.mpr (Or.inr ⟨rfl, hlt⟩)⟩
  | case2 a start b limit hne hshort =>
    have hff : a ≠ 0xff := hshort.1.ne
    constructor
    · exact (cons_lt_cons_iff.mpr (Or.inl (lt_add_one hff)) : a :: start < [a + 1]).le
    · refine cons_lt_cons_iff.mpr (Or.inl ?_)
      rw [UInt8.lt_iff_toNat_lt, toNat_add_one hff]
      exact hshort.2
  | case3 a start b limit hne hlong => exact ⟨le_refl _, h⟩
  | case4 start limit => exact ⟨le_refl _, h⟩

theorem findShortestSeparator_lt {start limit : Bytes}
    (h : findShortestSeparator start limit ≠ start) : findShortestSeparator start limit < limit := by
  fun_induction findShortestSeparator start limit with
  | case1 start a limit ih =>
    exact cons_lt_cons_iff.mpr (Or.inr ⟨rfl, ih fun heq => h (congrArg (a :: ·) heq)⟩)
  | case2 a start b limit hne hshort =>
    refine cons_lt_cons_iff.mpr (Or.inl ?_)
    rw [UInt8.lt_iff_toNat_lt, toNat_add_one hshort.1.ne]
    exact hshort.2
  | case3 => exact absurd rfl h
  | case4 => exact absurd rfl h

theorem findShortestSeparator_self (key : Bytes) : findShortestSeparator key key = key := by
  induction key with
  | nil => rfl
  | cons a key ih => rw [findShortestSeparator, if_pos rfl, ih]

theorem le_findShortSuccessor (key : Bytes) : key ≤ findShortSuccessor key := by
  fun_induction findShortSuccessor key with
  | case1 => exact le_refl _
  | case2 b key hne =>
    exact (cons_lt_cons_iff.mpr (Or.inl (lt_add_one hne)) : b :: key < [b + 1]).le
  | case3 b key hff ih => exact cons_le_cons b ih

end Bytewise

/-! ## Internal keys -/

def extractTag (internalKey : Bytes) : Nat :=
  decodeFixed64 (internalKey.drop (internalKey.length - 8))

namespace Internal

variable (user : Comparator)

def compare (a b : Bytes) : Ordering :=
  match user.compare (extractUserKey a) (extractUserKey b) with
  | .eq =>
    if extractTag a > extractTag b then .lt else if extractTag a < extractTag b then .gt else .eq
  | r => r

def withEarliestTag (userKey : Bytes) : Bytes :=
  userKey ++ encodeFixed64 (packSequenceAndType kMaxSequenceNumber kValueTypeForSeek)

def findShortestSeparator (start limit : Bytes) : Bytes :=
  let userStart := extractUserKey start
  let tmp := user.findShortestSeparator userStart (extractUserKey limit)
  if tmp.length < userStart.length ∧ user.compare userStart tmp = .lt then withEarliestTag tmp
  else start

def findShortSuccessor (key : Bytes) : Bytes :=
  let userKey := extractUserKey key
  let tmp := user.findShortSuccessor userKey
  if tmp.length < userKey.length ∧ user.compare userKey tmp = .lt then withEarliestTag tmp
  else key

/-- `InternalKeyComparator`. -/
def comparator : Comparator := ⟨compare user, findShortestSeparator user, findShortSuccessor user⟩

theorem extractUserKey_withEarliestTag (userKey : Bytes) :
    extractUserKey (withEarliestTag userKey) = userKey := by
  unfold extractUserKey withEarliestTag
  rw [length_append, length_encodeFixed64, Nat.add_sub_cancel, take_left]

theorem eight_le_withEarliestTag (userKey : Bytes) : 8 ≤ (withEarliestTag userKey).length := by
  unfold withEarliestTag
  rw [length_append, length_encodeFixed64]
  omega

end Internal

/-! ## The comparators of tables -/

/-- `Compare` is the order of the ranks of keys. -/
structure Compares {T κ : Type*} [LinearOrder κ] (compare : T → T → Ordering) (rank : T → κ) :
    Prop where
  lt_iff : ∀ {a b}, compare a b = .lt ↔ rank a < rank b
  eq_iff : ∀ {a b}, compare a b = .eq ↔ rank a = rank b

theorem Compares.gt_iff {T κ : Type*} [LinearOrder κ] {compare : T → T → Ordering} {rank : T → κ}
    (h : Compares compare rank) {a b : T} : compare a b = .gt ↔ rank b < rank a := by
  rcases lt_trichotomy (rank a) (rank b) with hlt | heq | hgt
  · rw [h.lt_iff.mpr hlt]
    exact ⟨fun hne => absurd hne (by decide), fun hgt => absurd hgt hlt.asymm⟩
  · rw [h.eq_iff.mpr heq]
    exact ⟨fun hne => absurd hne (by decide), fun hgt => absurd heq hgt.ne'⟩
  · refine iff_of_true ?_ hgt
    cases hc : compare a b with
    | lt => exact absurd (h.lt_iff.mp hc) hgt.asymm
    | eq => exact absurd (h.eq_iff.mp hc) hgt.ne'
    | gt => rfl

namespace Internal

/-- What the internal comparator compares, if the user's one compares ranks. -/
def rank {κ : Type} (userRank : Bytes → κ) (key : Bytes) : InternalKey κ :=
  ⟨userRank (extractUserKey key), extractTag key⟩

theorem compares {κ : Type} [LinearOrder κ] {user : Comparator} {userRank : Bytes → κ}
    (h : Compares user.compare userRank) : Compares (compare user) (rank userRank) := by
  constructor
  · intro a b
    rw [InternalKey.lt_iff]
    show compare user a b = .lt ↔ userRank (extractUserKey a) < userRank (extractUserKey b) ∨
      userRank (extractUserKey a) = userRank (extractUserKey b) ∧ extractTag b < extractTag a
    rw [← h.lt_iff, ← h.eq_iff]
    unfold compare
    cases user.compare (extractUserKey a) (extractUserKey b) with
    | lt => simp
    | gt => simp
    | eq => split_ifs <;> simp <;> omega
  · intro a b
    rw [InternalKey.ext_iff]
    show compare user a b = .eq ↔ userRank (extractUserKey a) = userRank (extractUserKey b) ∧
      extractTag a = extractTag b
    rw [← h.eq_iff]
    unfold compare
    cases user.compare (extractUserKey a) (extractUserKey b) with
    | lt => simp
    | gt => simp
    | eq => split_ifs <;> simp <;> omega

/-- What is asked of the two functions of a user's comparator. -/
structure Shortens {κ : Type} [LinearOrder κ] (user : Comparator) (userRank : Bytes → κ) :
    Prop where
  separator : ∀ {a b}, userRank a < userRank b →
    userRank a ≤ userRank (user.findShortestSeparator a b) ∧
      userRank (user.findShortestSeparator a b) < userRank b
  separator_eq : ∀ {a b}, userRank a = userRank b → user.findShortestSeparator a b = a
  successor : ∀ a, userRank a ≤ userRank (user.findShortSuccessor a)

section Shortening

variable {user : Comparator} {κ : Type} [LinearOrder κ] {userRank : Bytes → κ}

theorem separator_between (hcmp : Compares user.compare userRank) (h : Shortens user userRank)
    (hlt : rank userRank a < rank userRank b) :
    findShortestSeparator user a b = a ∨
      (8 ≤ (findShortestSeparator user a b).length ∧
        userRank (extractUserKey a) < userRank (extractUserKey (findShortestSeparator user a b)) ∧
        userRank (extractUserKey (findShortestSeparator user a b)) <
          userRank (extractUserKey b)) := by
  unfold findShortestSeparator
  dsimp only
  split_ifs with hshort
  · obtain ⟨hlen, hafter⟩ := hshort
    rw [extractUserKey_withEarliestTag]
    refine Or.inr ⟨eight_le_withEarliestTag _, hcmp.lt_iff.mp hafter, ?_⟩
    obtain huser | ⟨heq, -⟩ := (InternalKey.lt_iff _ _).mp hlt
    · exact (h.separator huser).2
    · -- equal user keys have no separator but themselves
      rw [h.separator_eq heq] at hlen
      exact absurd hlen (lt_irrefl _)
  · exact Or.inl rfl

theorem separator_order (hcmp : Compares user.compare userRank) (h : Shortens user userRank)
    (ha : 8 ≤ a.length) (hlt : rank userRank a < rank userRank b) :
    8 ≤ (findShortestSeparator user a b).length ∧
      rank userRank a ≤ rank userRank (findShortestSeparator user a b) ∧
      rank userRank (findShortestSeparator user a b) < rank userRank b := by
  obtain heq | ⟨hwf, hafter, hbefore⟩ := separator_between hcmp h hlt
  · rw [heq]
    exact ⟨ha, le_refl _, hlt⟩
  · exact ⟨hwf, (InternalKey.lt_of_userKey_lt hafter).le, InternalKey.lt_of_userKey_lt hbefore⟩

theorem successor_order (hcmp : Compares user.compare userRank) {a : Bytes} (ha : 8 ≤ a.length) :
    8 ≤ (findShortSuccessor user a).length ∧ (findShortSuccessor user a = a ∨
      rank userRank a < rank userRank (findShortSuccessor user a)) := by
  unfold findShortSuccessor
  dsimp only
  split_ifs with hshort
  · refine ⟨eight_le_withEarliestTag _, Or.inr (InternalKey.lt_of_userKey_lt ?_)⟩
    show userRank (extractUserKey a) < userRank (extractUserKey (withEarliestTag _))
    rw [extractUserKey_withEarliestTag]
    exact hcmp.lt_iff.mp hshort.2
  · exact ⟨ha, Or.inl rfl⟩

end Shortening

end Internal

theorem Bytewise.compares : Compares Bytewise.comparator.compare id :=
  ⟨Bytewise.compare_lt_iff, Bytewise.compare_eq_iff⟩

theorem Bytewise.shortens : Internal.Shortens Bytewise.comparator id where
  separator := Bytewise.findShortestSeparator_spec
  separator_eq := by
    rintro a _ rfl
    exact Bytewise.findShortestSeparator_self a
  successor := Bytewise.le_findShortSuccessor

/-- **Key shortening keeps the order**, for byte strings and for internal keys over any comparator
    of the user's. A function asserts only about keys that it has changed: these are strictly
    between their neighbours, as asserted, and they have the eight bytes of a tag. -/
theorem key_shortening {κ : Type} [LinearOrder κ] {user : Comparator} {userRank : Bytes → κ}
    (hcmp : Compares user.compare userRank) (h : Internal.Shortens user userRank) :
    (∀ a b : Bytes, a < b → a ≤ Bytewise.findShortestSeparator a b ∧
      Bytewise.findShortestSeparator a b < b) ∧
    (∀ a b : Bytes, Bytewise.findShortestSeparator a b ≠ a →
      Bytewise.compare (Bytewise.findShortestSeparator a b) b = .lt) ∧
    (∀ a : Bytes, a ≤ Bytewise.findShortSuccessor a) ∧
    (∀ x y : Bytes, 8 ≤ x.length → 8 ≤ y.length → Internal.compare user x y = .lt →
      8 ≤ (Internal.findShortestSeparator user x y).length ∧
      Internal.compare user x (Internal.findShortestSeparator user x y) ≠ .gt ∧
      Internal.compare user (Internal.findShortestSeparator user x y) y = .lt ∧
      (Internal.findShortestSeparator user x y ≠ x →
        Internal.compare user x (Internal.findShortestSeparator user x y) = .lt ∧
        ∀ entry : Bytes, user.compare (extractUserKey entry) (extractUserKey y) = .eq →
          Internal.compare user (Internal.findShortestSeparator user x y) entry = .lt)) ∧
    ∀ x : Bytes, 8 ≤ x.length → 8 ≤ (Internal.findShortSuccessor user x).length ∧
      Internal.compare user x (Internal.findShortSuccessor user x) ≠ .gt ∧
      (Internal.findShortSuccessor user x ≠ x →
        Internal.compare user x (Internal.findShortSuccessor user x) = .lt) := by
  have hint := Internal.compares hcmp
  refine ⟨fun a b => Bytewise.findShortestSeparator_spec, ?_, Bytewise.le_findShortSuccessor,
    ?_, ?_⟩
  · intro a b
    rw [Bytewise.compare_lt_iff]
    exact Bytewise.findShortestSeparator_lt
  · intro x y hx hy hlt
    rw [hint.lt_iff] at hlt
    obtain ⟨hwf, hle, hbefore⟩ := Internal.separator_order hcmp h hx hlt
    rw [ne_eq, hint.gt_iff, not_lt, hint.lt_iff, hint.lt_iff]
    refine ⟨hwf, hle, hbefore, fun hne => ?_⟩
    obtain ⟨-, hafter, huser⟩ := (Internal.separator_between hcmp h hlt).resolve_left hne
    refine ⟨InternalKey.lt_of_userKey_lt hafter, fun entry hentry => ?_⟩
    rw [hint.lt_iff]
    refine InternalKey.lt_of_userKey_lt (lt_of_lt_of_eq huser ?_)
    exact (hcmp.eq_iff.mp hentry).symm
  · intro x hx
    obtain ⟨hwf, hsame⟩ := Internal.successor_order hcmp hx
    rw [ne_eq, hint.gt_iff, not_lt, hint.lt_iff]
    refine ⟨hwf, ?_, fun hne => hsame.resolve_left hne⟩
    obtain hsame | hafter := hsame
    · rw [hsame]
    · exact hafter.le

theorem key_shortening_bytewise :
    Internal.findShortestSeparator Bytewise.comparator
        ([97, 98, 99, 100] ++ List.replicate 8 1) ([97, 98, 122, 122] ++ List.replicate 8 1) =
      Internal.withEarliestTag [97, 98, 100] ∧
    Internal.compare Bytewise.comparator (Internal.findShortestSeparator Bytewise.comparator
        ([97, 98, 99, 100] ++ List.replicate 8 1) ([97, 98, 122, 122] ++ List.replicate 8 1))
      ([97, 98, 122, 122] ++ List.replicate 8 1) = .lt :=
  ⟨by decide +kernel, ((key_shortening Bytewise.compares Bytewise.shortens).2.2.2.1 _ _ (by decide)
    (by decide) (by decide +kernel)).2.2.1⟩

/-- The comparator of a table: `BytewiseComparator`, or an `InternalKeyComparator` over it. -/
inductive TableOrder where
  | bytewise
  | internal
  deriving DecidableEq, Repr

namespace TableOrder

def comparator : TableOrder → Comparator
  | bytewise => Bytewise.comparator
  | internal => Internal.comparator Bytewise.comparator

def WellFormed : TableOrder → Bytes → Prop
  | bytewise, _ => True
  | internal, key => 8 ≤ key.length

instance (o : TableOrder) (key : Bytes) : Decidable (o.WellFormed key) :=
  match o with
  | bytewise => isTrue trivial
  | internal => inferInstanceAs (Decidable (8 ≤ key.length))

def rank : TableOrder → Bytes → InternalKey Bytes
  | bytewise, key => ⟨key, 0⟩
  | internal, key => ⟨extractUserKey key, extractTag key⟩

theorem bytewise_rank_lt : bytewise.rank a < bytewise.rank b ↔ a < b := by
  rw [InternalKey.lt_iff]
  simp [rank]

theorem bytewise_rank_le : bytewise.rank a ≤ bytewise.rank b ↔ a ≤ b := by
  rw [← not_lt, bytewise_rank_lt, not_lt]

theorem compare_lt_iff (o : TableOrder) :
    o.comparator.compare a b = .lt ↔ o.rank a < o.rank b := by
  cases o with
  | bytewise =>
    rw [bytewise_rank_lt]
    exact Bytewise.compare_lt_iff
  | internal => exact (Internal.compares Bytewise.compares).lt_iff

theorem compare_eq_iff (o : TableOrder) :
    o.comparator.compare a b = .eq ↔ o.rank a = o.rank b := by
  cases o with
  | bytewise =>
    rw [InternalKey.ext_iff]
    show Bytewise.compare a b = .eq ↔ a = b ∧ 0 = 0
    rw [Bytewise.compare_eq_iff]
    simp
  | internal => exact (Internal.compares Bytewise.compares).eq_iff

theorem compares (o : TableOrder) : Compares o.comparator.compare o.rank :=
  ⟨o.compare_lt_iff, o.compare_eq_iff⟩

theorem separator_user (h : internal.rank a < internal.rank b) :
    internal.comparator.findShortestSeparator a b = a ∨
      (internal.WellFormed (internal.comparator.findShortestSeparator a b) ∧
        extractUserKey a < extractUserKey (internal.comparator.findShortestSeparator a b) ∧
        extractUserKey (internal.comparator.findShortestSeparator a b) < extractUserKey b) :=
  Internal.separator_between Bytewise.compares Bytewise.shortens h

theorem separator_spec (o : TableOrder) (ha : o.WellFormed a) (h : o.rank a < o.rank b) :
    o.WellFormed (o.comparator.findShortestSeparator a b) ∧
      o.rank a ≤ o.rank (o.comparator.findShortestSeparator a b) ∧
      o.rank (o.comparator.findShortestSeparator a b) < o.rank b := by
  cases o with
  | bytewise =>
    rw [bytewise_rank_lt] at h
    rw [bytewise_rank_le, bytewise_rank_lt]
    exact ⟨trivial, Bytewise.findShortestSeparator_spec h⟩
  | internal =>
    exact Internal.separator_order Bytewise.compares Bytewise.shortens ha h

theorem successor_spec (o : TableOrder) {a : Bytes} (ha : o.WellFormed a) :
    o.WellFormed (o.comparator.findShortSuccessor a) ∧
      o.rank a ≤ o.rank (o.comparator.findShortSuccessor a) := by
  cases o with
  | bytewise =>
    rw [bytewise_rank_le]
    exact ⟨trivial, Bytewise.le_findShortSuccessor a⟩
  | internal =>
    show 8 ≤ (Internal.findShortSuccessor Bytewise.comparator a).length ∧
      internal.rank a ≤ internal.rank (Internal.findShortSuccessor Bytewise.comparator a)
    obtain ⟨hwf, heq | hlt⟩ := Internal.successor_order Bytewise.compares ha
    · rw [heq]
      exact ⟨ha, le_refl _⟩
    · exact ⟨hwf, le_of_lt hlt⟩

end TableOrder

end LevelDB
