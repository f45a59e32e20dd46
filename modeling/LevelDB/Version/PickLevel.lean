/-
  The level of a flushed memtable (`db/version_set.cc`): `SomeFileOverlapsRange`,
  `OverlapInLevel`, `PickLevelForMemTableOutput`.
-/
import LevelDB.Compaction.Inputs

namespace LevelDB

open List Option

variable {K : Type} [LinearOrder K]

def kMaxMemCompactLevel : Nat := 2

/-- The largest tag: `kMaxSequenceNumber` with `kValueTypeForSeek`. -/
def maxTag : Nat := packSequenceAndType kMaxSequenceNumber kValueTypeForSeek

def someFileOverlapsRange (disjointSortedFiles : Bool) (files : List (FileMetaData K))
    (smallestUserKey largestUserKey : Option K) : Bool :=
  if disjointSortedFiles then
    let index := match smallestUserKey with
      | none => 0
      | some k => findFile files ⟨k, maxTag⟩
    match files[index]? with
    | none => false
    | some f => !(largestUserKey.any fun k => decide (k < f.smallest.userKey))
  else files.any (FileMetaData.meets smallestUserKey largestUserKey)

namespace Version

def overlapInLevel (v : Version K) (level : Nat) (smallestUserKey largestUserKey : K) : Bool :=
  someFileOverlapsRange (decide (0 < level)) (v.files level) (some smallestUserKey)
    (some largestUserKey)

/-- The loop of `PickLevelForMemTableOutput`, with the number of levels left to try. -/
def pickLevelLoop (v : Version K) (maxFileSize : Nat) (smallestUserKey largestUserKey : K) :
    Nat → Nat → Nat
  | 0, level => level
  | fuel + 1, level =>
    if v.overlapInLevel (level + 1) smallestUserKey largestUserKey then level
    else if level + 2 < kNumLevels ∧ maxGrandParentOverlapBytes maxFileSize <
        totalFileSize (v.getOverlappingInputs (level + 2) (some ⟨smallestUserKey, maxTag⟩)
          (some ⟨largestUserKey, 0⟩)) then level
    else pickLevelLoop v maxFileSize smallestUserKey largestUserKey fuel (level + 1)

def pickLevelForMemTableOutput (v : Version K) (maxFileSize : Nat)
    (smallestUserKey largestUserKey : K) : Nat :=
  if v.overlapInLevel 0 smallestUserKey largestUserKey then 0
  else v.pickLevelLoop maxFileSize smallestUserKey largestUserKey kMaxMemCompactLevel 0

end Version

theorem findIdx_congr {α : Type} {p q : α → Bool} {l : List α} (h : ∀ a ∈ l, p a = q a) :
    l.findIdx p = l.findIdx q := by
  induction l with
  | nil => rfl
  | cons a l ih =>
    rw [forall_mem_cons] at h
    rw [findIdx_cons, findIdx_cons, h.1, ih h.2]

theorem any_and_eq_findIdx {α : Type} {p q : α → Bool} {l : List α}
    (hq : l.Pairwise fun a b => q b = true → q a = true) :
    l.any (fun a => p a && q a) = (l[l.findIdx p]?).any q := by
  induction l with
  | nil => rfl
  | cons a l ih =>
    obtain ⟨hfirst, hrest⟩ := pairwise_cons.mp hq
    rw [any_cons, findIdx_cons]
    cases hp : p a with
    | false =>
      rw [cond_false, getElem?_cons_succ, ih hrest]
      rfl
    | true =>
      rw [cond_true, getElem?_cons_zero, any_some, Bool.true_and]
      cases hqa : q a with
      | true => rfl
      | false =>
        rw [Bool.false_or, List.any_eq_false]
        intro b hb hpq
        rw [Bool.and_eq_true] at hpq
        rw [hfirst b hb hpq.2] at hqa
        cases hqa

theorem seekKey_le_iff {k : K} {key : InternalKey K} (htag : key.tag ≤ maxTag) :
    (⟨k, maxTag⟩ : InternalKey K) ≤ key ↔ k ≤ key.userKey := by
  rw [← not_lt, ← not_lt, InternalKey.lt_iff, not_or, not_and]
  exact ⟨fun h => h.1, fun h => ⟨h, fun _ => not_lt.mpr htag⟩⟩

theorem someFileOverlapsRange_eq {files : List (FileMetaData K)} (hsort : SortedDisjoint files)
    (hr : ∀ f ∈ files, f.smallest ≤ f.largest) (htag : ∀ f ∈ files, f.largest.tag ≤ maxTag)
    (b e : Option K) :
    someFileOverlapsRange true files b e = someFileOverlapsRange false files b e := by
  have hindex : (match b with
      | none => 0
      | some k => findFile files ⟨k, maxTag⟩) =
      files.findIdx fun f => !(b.any fun b => decide (f.largest.userKey < b)) := by
    cases b with
    | none => cases files <;> rfl
    | some k =>
      refine (findFile_eq hsort hr ⟨k, maxTag⟩).trans ?_
      refine findIdx_congr fun f hf => ?_
      rw [any_some, ← decide_not, decide_eq_decide, not_lt]
      exact seekKey_le_iff (htag f hf)
  have hq : files.Pairwise fun f g =>
      (!(e.any fun e => decide (e < g.smallest.userKey))) = true →
        (!(e.any fun e => decide (e < f.smallest.userKey))) = true := by
    refine List.Pairwise.imp_of_mem ?_ hsort
    intro f g hf _ hfg
    have hle := InternalKey.userKey_mono ((hr f hf).trans hfg.le)
    cases e with
    | none => exact id
    | some k =>
      simp only [any_some, Bool.not_eq_true', decide_eq_false_iff_not, not_lt]
      exact hle.trans
  unfold someFileOverlapsRange
  rw [if_pos rfl, if_neg Bool.false_ne_true, hindex]
  refine Eq.trans ?_ (any_and_eq_findIdx hq).symm
  dsimp only
  generalize files.findIdx (fun f => !(b.any fun b => decide (f.largest.userKey < b))) = index
  cases files[index]? <;> rfl

theorem someFileOverlapsRange_false {disjointSortedFiles : Bool} {files : List (FileMetaData K)}
    (hsort : disjointSortedFiles = true → SortedDisjoint files)
    (hr : ∀ f ∈ files, f.smallest ≤ f.largest) (htag : ∀ f ∈ files, f.largest.tag ≤ maxTag)
    {b e : K} (h : someFileOverlapsRange disjointSortedFiles files (some b) (some e) = false) :
    ∀ f ∈ files, f.largest.userKey < b ∨ e < f.smallest.userKey := by
  have hscan : someFileOverlapsRange false files (some b) (some e) = false := by
    cases disjointSortedFiles with
    | false => exact h
    | true => rwa [someFileOverlapsRange_eq (hsort rfl) hr htag] at h
  intro f hf
  have hnot := List.any_eq_false.mp hscan f hf
  rw [FileMetaData.meets_iff, not_and_or] at hnot
  simpa using hnot

/-- **The search for a file**: `FindFile` returns the first index whose largest key is at or after
    the key, and `SomeFileOverlapsRange` answers the same by it as by a scan, whichever bounds are
    there. -/
theorem findFile_overlaps {files : List (FileMetaData K)} (hsort : SortedDisjoint files)
    (hr : ∀ f ∈ files, f.smallest ≤ f.largest)
    (hkeys : ∀ f ∈ files, ∃ sequence ≤ kMaxSequenceNumber, ∃ type,
      f.largest.tag = packSequenceAndType sequence type) :
    (∀ key : InternalKey K, findFile files key ≤ files.length ∧
      (∀ i f, files[i]? = some f → i < findFile files key → f.largest < key) ∧
      ∀ f, files[findFile files key]? = some f → key ≤ f.largest) ∧
    ∀ smallestUserKey largestUserKey : Option K,
      someFileOverlapsRange true files smallestUserKey largestUserKey =
        someFileOverlapsRange false files smallestUserKey largestUserKey := by
  constructor
  · intro key
    rw [findFile_eq hsort hr]
    refine ⟨findIdx_le_length, fun i f hf hi => ?_, fun f hf => ?_⟩
    · obtain ⟨hlt, rfl⟩ := List.getElem?_eq_some_iff.mp hf
      simpa using not_of_lt_findIdx hi
    · obtain ⟨hlt, rfl⟩ := List.getElem?_eq_some_iff.mp hf
      simpa using findIdx_getElem (w := hlt)
  · refine someFileOverlapsRange_eq hsort hr fun f hf => ?_
    obtain ⟨sequence, hle, type, htag⟩ := hkeys f hf
    have htype : type.toNat ≤ kValueTypeForSeek.toNat := by cases type <;> decide
    rw [htag, maxTag, packSequenceAndType_eq, packSequenceAndType_eq]
    omega

theorem findFile_overlaps_shared :
    someFileOverlapsRange true [⟨1, 1, ⟨3, 513⟩, ⟨5, 513⟩⟩, ⟨2, 1, ⟨5, 257⟩, ⟨7, 257⟩⟩] (some 5)
        (some 5) =
      someFileOverlapsRange false [⟨1, 1, ⟨3, 513⟩, ⟨5, 513⟩⟩, ⟨2, 1, ⟨5, 257⟩, ⟨7, 257⟩⟩] (some 5)
        (some 5) := by
  refine (findFile_overlaps (K := Nat) (by unfold SortedDisjoint; decide +kernel)
    (by decide +kernel) ?_).2 (some 5) (some 5)
  simp only [forall_mem_cons]
  exact ⟨⟨2, by decide, .value, rfl⟩, ⟨1, by decide, .value, rfl⟩, nofun⟩

namespace Version

variable {v : Version K} {b e : K}

theorem overlapInLevel_false (hsort : v.LevelsSorted) (hr : v.Ranged)
    (htag : ∀ level, ∀ f ∈ v.files level, f.largest.tag ≤ maxTag) {level : Nat}
    (h : v.overlapInLevel level b e = false) :
    ∀ f ∈ v.files level, f.largest.userKey < b ∨ e < f.smallest.userKey := by
  refine someFileOverlapsRange_false ?_ (hr level) (htag level) h
  intro hpos
  exact hsort level (of_decide_eq_true hpos)

theorem pickLevelLoop_spec (hsort : v.LevelsSorted) (hr : v.Ranged)
    (htag : ∀ level, ∀ f ∈ v.files level, f.largest.tag ≤ maxTag) (maxFileSize fuel : Nat) :
    ∀ {level : Nat},
      (∀ l ≤ level, ∀ f ∈ v.files l, f.largest.userKey < b ∨ e < f.smallest.userKey) →
      ∀ l ≤ v.pickLevelLoop maxFileSize b e fuel level, ∀ f ∈ v.files l,
        f.largest.userKey < b ∨ e < f.smallest.userKey := by
  induction fuel with
  | zero => intro level h; exact h
  | succ fuel ih =>
    intro level h
    unfold pickLevelLoop
    split_ifs with h1 h2
    · exact h
    · exact h
    · apply ih
      intro l hl
      obtain hl | rfl := Nat.lt_or_eq_of_le hl
      · exact h l (by omega)
      · exact overlapInLevel_false hsort hr htag (by simpa using h1)

theorem pickLevelForMemTableOutput_le (v : Version K) (maxFileSize : Nat) (b e : K) :
    v.pickLevelForMemTableOutput maxFileSize b e ≤ kMaxMemCompactLevel := by
  have hloop : ∀ fuel level, v.pickLevelLoop maxFileSize b e fuel level ≤ level + fuel := by
    intro fuel
    induction fuel with
    | zero => intro level; exact le_refl _
    | succ fuel ih =>
      intro level
      unfold pickLevelLoop
      have := ih (level + 1)
      split_ifs
      · exact Nat.le_add_right _ _
      · exact Nat.le_add_right _ _
      · omega
  unfold pickLevelForMemTableOutput
  split_ifs
  · exact Nat.zero_le _
  · simpa using hloop kMaxMemCompactLevel 0

theorem pickLevelForMemTableOutput_spec (hsort : v.LevelsSorted) (hr : v.Ranged)
    (htag : ∀ level, ∀ f ∈ v.files level, f.largest.tag ≤ maxTag) (maxFileSize : Nat)
    (hpos : 0 < v.pickLevelForMemTableOutput maxFileSize b e) :
    ∀ l ≤ v.pickLevelForMemTableOutput maxFileSize b e, ∀ f ∈ v.files l,
      f.largest.userKey < b ∨ e < f.smallest.userKey := by
  unfold pickLevelForMemTableOutput at hpos ⊢
  split_ifs at hpos ⊢ with h
  · exact absurd hpos (lt_irrefl 0)
  · apply pickLevelLoop_spec hsort hr htag
    intro l hl
    obtain rfl := Nat.le_zero.mp hl
    exact overlapInLevel_false hsort hr htag (by simpa using h)

end Version

end LevelDB
