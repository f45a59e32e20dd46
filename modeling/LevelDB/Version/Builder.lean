/-
  Version edits and `VersionSet::Builder` (`db/version_edit.h`, `db/version_set.cc`).

  `Builder.apply` accumulates the deleted and added files of edits per level, `saveTo`
  merges the added files into the sorted files of the base version. The sets of the source
  are lists here; `std::upper_bound` is the same binary search as in `FindFile`.
-/
import LevelDB.Version.Version

namespace LevelDB

open List SortedList

variable {K : Type}

/-- `class VersionEdit`. -/
structure VersionEdit (K : Type) where
  comparator : Option String := none
  logNumber : Option Nat := none
  prevLogNumber : Option Nat := none
  nextFileNumber : Option Nat := none
  lastSequence : Option Nat := none
  compactPointers : List (Nat × InternalKey K) := []
  deletedFiles : List (Nat × Nat) := []
  newFiles : List (Nat × FileMetaData K) := []
  deriving DecidableEq, Repr

namespace VersionEdit

def addFile (edit : VersionEdit K) (level : Nat) (f : FileMetaData K) : VersionEdit K :=
  { edit with newFiles := edit.newFiles ++ [(level, f)] }

/-- `std::set<std::pair<int, uint64_t>>::emplace`. -/
def insertDeleted (p : Nat × Nat) : List (Nat × Nat) → List (Nat × Nat)
  | [] => [p]
  | q :: rest =>
    if p.1 < q.1 ∨ p.1 = q.1 ∧ p.2 < q.2 then p :: q :: rest
    else if p = q then q :: rest
    else q :: insertDeleted p rest

def removeFile (edit : VersionEdit K) (level number : Nat) : VersionEdit K :=
  { edit with deletedFiles := insertDeleted (level, number) edit.deletedFiles }

def newFilesAt (edit : VersionEdit K) (level : Nat) : List (FileMetaData K) :=
  (edit.newFiles.filter fun p => p.1 == level).map Prod.snd

def deletedAt (edit : VersionEdit K) (level : Nat) : List Nat :=
  (edit.deletedFiles.filter fun p => p.1 == level).map Prod.snd

end VersionEdit

theorem mem_insertDeleted {p q : Nat × Nat} {l : List (Nat × Nat)} :
    q ∈ VersionEdit.insertDeleted p l ↔ q = p ∨ q ∈ l := by
  induction l with
  | nil => simp [VersionEdit.insertDeleted]
  | cons x rest ih =>
    unfold VersionEdit.insertDeleted
    split_ifs with h1 h2
    · simp
    · simp_all
    · rw [mem_cons, ih, mem_cons]
      exact or_left_comm

variable [LinearOrder K]

def bySmallestKey (f1 f2 : FileMetaData K) : Bool :=
  if f1.smallest = f2.smallest then decide (f1.number < f2.number)
  else decide (f1.smallest < f2.smallest)

/-- `FileSet::insert`: an equivalent file that is already there stays. -/
def insertFile (f : FileMetaData K) : List (FileMetaData K) → List (FileMetaData K)
  | [] => [f]
  | g :: rest =>
    if bySmallestKey f g then f :: g :: rest
    else if bySmallestKey g f then g :: insertFile f rest
    else g :: rest

/-- `struct LevelState`. -/
structure LevelState (K : Type) where
  deletedFiles : List Nat := []
  addedFiles : List (FileMetaData K) := []

/-- `VersionSet::Builder`, without the base version. -/
abbrev Builder (K : Type) := Nat → LevelState K

namespace LevelState

def addFiles (st : LevelState K) : List (FileMetaData K) → LevelState K
  | [] => st
  | f :: rest =>
    addFiles { deletedFiles := st.deletedFiles.filter (· ≠ f.number)
               addedFiles := insertFile f st.addedFiles } rest

def apply (st : LevelState K) (deleted : List Nat) (added : List (FileMetaData K)) :
    LevelState K :=
  addFiles { st with deletedFiles := st.deletedFiles ++ deleted } added

/-- `std::upper_bound(base_iter, base_end, added_file, cmp)`. -/
def upperBound (base : List (FileMetaData K)) (f : FileMetaData K) : Nat :=
  bisect (fun mid => (base[mid]?.map fun g => !bySmallestKey f g).getD false) 0 base.length

/-- The loop of `SaveTo` over the added files of a level. -/
def mergeFiles : List (FileMetaData K) → List (FileMetaData K) → List (FileMetaData K)
  | base, [] => base
  | base, f :: added =>
    let n := upperBound base f
    base.take n ++ f :: mergeFiles (base.drop n) added

/-- `SaveTo` at one level, with the test of `MaybeAddFile`. -/
def save (st : LevelState K) (base : List (FileMetaData K)) : List (FileMetaData K) :=
  (mergeFiles base st.addedFiles).filter fun f => decide (f.number ∉ st.deletedFiles)

end LevelState

namespace Builder

def empty : Builder K := fun _ => {}

def apply (b : Builder K) (edit : VersionEdit K) : Builder K := fun level =>
  (b level).apply (edit.deletedAt level) (edit.newFilesAt level)

def saveTo (b : Builder K) (base : Version K) : Version K where
  files level := if level < kNumLevels then (b level).save (base.files level) else []
  files_eq_nil _ h := if_neg (not_lt.mpr h)

end Builder

/-- The version `LogAndApply` builds from `v` and `edit`. -/
def Version.applyEdit (v : Version K) (edit : VersionEdit K) : Version K :=
  (Builder.empty.apply edit).saveTo v

/-! ## Members -/

namespace LevelState

theorem mem_mergeFiles {f : FileMetaData K} (added : List (FileMetaData K)) :
    ∀ base, f ∈ mergeFiles base added ↔ f ∈ base ∨ f ∈ added := by
  induction added with
  | nil => intro base; simp [mergeFiles]
  | cons g added ih =>
    intro base
    unfold mergeFiles
    dsimp only
    rw [mem_append, mem_cons, ih, mem_cons]
    have hsplit : f ∈ base ↔ f ∈ base.take (upperBound base g) ∨ f ∈ base.drop (upperBound base g) := by
      rw [← mem_append, List.take_append_drop]
    rw [hsplit]
    tauto

theorem mem_save {st : LevelState K} {base : List (FileMetaData K)} {f : FileMetaData K} :
    f ∈ st.save base ↔ (f ∈ base ∨ f ∈ st.addedFiles) ∧ f.number ∉ st.deletedFiles := by
  unfold save
  rw [mem_filter, mem_mergeFiles, decide_eq_true_eq]

end LevelState

variable {f g : FileMetaData K}

theorem bySmallestKey_iff :
    bySmallestKey f g = true ↔
      f.smallest < g.smallest ∨ f.smallest = g.smallest ∧ f.number < g.number := by
  unfold bySmallestKey
  split_ifs with h
  · simp [h]
  · simp [h]

variable {l : List (FileMetaData K)}

theorem mem_insertFile_of_mem (h : g ∈ l) :
    g ∈ insertFile f l := by
  induction l with
  | nil => simp at h
  | cons x l ih =>
    grind [insertFile, mem_cons_of_mem]

theorem mem_of_mem_insertFile (h : g ∈ insertFile f l) : g = f ∨ g ∈ l := by
  induction l with
  | nil => exact Or.inl (by simpa [insertFile] using h)
  | cons x l ih =>
    grind [insertFile, mem_cons_of_mem]

theorem mem_insertFile_self {f : FileMetaData K} (h : ∀ g ∈ l, g.number ≠ f.number) :
    f ∈ insertFile f l := by
  induction l with
  | nil => simp [insertFile]
  | cons x l ih =>
    unfold insertFile
    split_ifs with h1 h2
    · simp
    · exact mem_cons_of_mem _ (ih fun g hg => h g (mem_cons_of_mem _ hg))
    · -- neither before nor after: equal numbers
      exfalso
      rw [bySmallestKey_iff] at h1 h2
      push Not at h1 h2
      have heq : f.smallest = x.smallest := le_antisymm h2.1 h1.1
      have h3 := h1.2 heq
      have h4 := h2.2 heq.symm
      exact h x (by simp) (by omega)

/-! ## Order -/

/-- Sorted by `BySmallestKey`. -/
def BySmallest (l : List (FileMetaData K)) : Prop :=
  l.Pairwise fun f g => bySmallestKey f g = true

theorem bySmallestKey_trans {f g h : FileMetaData K} (hfg : bySmallestKey f g = true)
    (hgh : bySmallestKey g h = true) : bySmallestKey f h = true := by
  grind [bySmallestKey_iff]

theorem bySmallestKey_asymm (h : bySmallestKey f g = true) :
    ¬ bySmallestKey g f = true := by
  grind [bySmallestKey_trans, bySmallestKey_iff, lt_irrefl]

theorem bySmallestKey_total (h : f.number ≠ g.number) :
    bySmallestKey f g = true ∨ bySmallestKey g f = true := by
  rw [bySmallestKey_iff, bySmallestKey_iff]
  obtain hs | hs | hs := lt_trichotomy f.smallest g.smallest
  · exact Or.inl (Or.inl hs)
  · simp_all
  · exact Or.inr (Or.inl hs)

theorem BySmallest.nodup (h : BySmallest l) : l.Nodup := by
  refine List.Pairwise.imp ?_ h
  intro f g hfg heq
  subst heq
  exact bySmallestKey_asymm hfg hfg

theorem BySmallest.ext {l l' : List (FileMetaData K)} (h : BySmallest l) (h' : BySmallest l')
    (hmem : ∀ f, f ∈ l ↔ f ∈ l') : l = l' := by
  have hperm : l.Perm l' := (perm_ext_iff_of_nodup h.nodup h'.nodup).mpr hmem
  refine hperm.eq_of_pairwise ?_ h h'
  intro f g _ _ hfg hgf
  exact absurd hgf (bySmallestKey_asymm hfg)

theorem insertFile_bySmallest {f : FileMetaData K} (h : BySmallest l) :
    BySmallest (insertFile f l) := by
  induction l with
  | nil => exact pairwise_singleton _ _
  | cons g l ih =>
    obtain ⟨hg, hl⟩ := pairwise_cons.mp h
    unfold insertFile
    split_ifs with h1 h2
    · refine pairwise_cons.mpr ⟨?_, h⟩
      intro x hx
      obtain rfl | hx := mem_cons.mp hx
      · exact h1
      · exact bySmallestKey_trans h1 (hg x hx)
    · refine pairwise_cons.mpr ⟨?_, ih hl⟩
      intro x hx
      obtain rfl | hx := mem_of_mem_insertFile hx
      · exact h2
      · exact hg x hx
    · exact h

variable {added : List (FileMetaData K)}

namespace LevelState

theorem upperBound_cut {base : List (FileMetaData K)} (h : BySmallest base) (f : FileMetaData K) :
    (∀ g ∈ base.take (upperBound base f), ¬ bySmallestKey f g = true) ∧
    (∀ g ∈ base.drop (upperBound base f), bySmallestKey f g = true) := by
  have hmono : base.Pairwise fun a b =>
      (!bySmallestKey f b) = true → (!bySmallestKey f a) = true := by
    refine h.imp ?_
    intro a b hab hb
    simp only [Bool.not_eq_true'] at hb ⊢
    by_contra ha
    have := bySmallestKey_trans (by simpa using ha) hab
    rw [hb] at this
    cases this
  obtain ⟨htake, hdrop⟩ := bisect_cut hmono
  exact ⟨fun g hg => by simpa using htake g hg, fun g hg => by simpa using hdrop g hg⟩

theorem mergeFiles_bySmallest :
    ∀ {base : List (FileMetaData K)}, BySmallest base → BySmallest added →
      (∀ g ∈ base, ∀ f ∈ added, bySmallestKey g f = true ∨ bySmallestKey f g = true) →
      BySmallest (mergeFiles base added) := by
  induction added with
  | nil => intro base hb _ _; exact hb
  | cons f added ih =>
    intro base hb ha hne
    obtain ⟨hf, hadded⟩ := pairwise_cons.mp ha
    obtain ⟨htake, hdrop⟩ := upperBound_cut hb f
    unfold mergeFiles
    dsimp only
    have hbefore : ∀ g ∈ base.take (upperBound base f), bySmallestKey g f = true := by
      intro g hg
      obtain h | h := hne g (mem_of_mem_take hg) f (by simp)
      · exact h
      · exact absurd h (htake g hg)
    have hafter : ∀ x ∈ mergeFiles (base.drop (upperBound base f)) added,
        bySmallestKey f x = true := by
      intro x hx
      obtain hx | hx := (mem_mergeFiles added _).mp hx
      · exact hdrop x hx
      · exact hf x hx
    refine pairwise_append.mpr ⟨hb.sublist (take_sublist _ _), ?_, ?_⟩
    · refine pairwise_cons.mpr ⟨hafter, ih (hb.sublist (drop_sublist _ _)) hadded ?_⟩
      intro g hg x hx
      exact hne g (mem_of_mem_drop hg) x (mem_cons_of_mem _ hx)
    · grind [bySmallestKey_trans]

end LevelState

/-! ## Applying edits -/

/-- The new files of an edit at a level have numbers of their own that the level has not
    seen. -/
def FreshAt (seen added : List (FileMetaData K)) : Prop :=
  (added.map FileMetaData.number).Nodup ∧ ∀ f ∈ added, ∀ g ∈ seen, g.number ≠ f.number

namespace LevelState

theorem addFiles_deleted (added : List (FileMetaData K)) :
    ∀ (st : LevelState K) (n : Nat), n ∈ (st.addFiles added).deletedFiles ↔
      n ∈ st.deletedFiles ∧ ∀ f ∈ added, f.number ≠ n := by
  induction added with
  | nil => intro st n; simp [addFiles]
  | cons f added ih =>
    intro st n
    unfold addFiles
    rw [ih]
    simp only [mem_filter, decide_eq_true_eq, mem_cons, forall_eq_or_imp]
    constructor
    · intro ⟨⟨h1, h2⟩, h3⟩
      exact ⟨h1, Ne.symm h2, h3⟩
    · intro ⟨h1, h2, h3⟩
      exact ⟨⟨h1, Ne.symm h2⟩, h3⟩

theorem addFiles_added :
    ∀ {st : LevelState K}, FreshAt st.addedFiles added →
      ∀ g, g ∈ (st.addFiles added).addedFiles ↔ g ∈ st.addedFiles ∨ g ∈ added := by
  induction added with
  | nil => intro st _ g; simp [addFiles]
  | cons f added ih =>
    intro st hfresh g
    obtain ⟨hnodup, hnew⟩ := hfresh
    rw [map_cons, nodup_cons] at hnodup
    have hnext : FreshAt (insertFile f st.addedFiles) added := by
      refine ⟨hnodup.2, ?_⟩
      intro x hx y hy
      obtain rfl | hy := mem_of_mem_insertFile hy
      · intro heq
        exact hnodup.1 (List.mem_map.mpr ⟨x, hx, heq.symm⟩)
      · exact hnew x (mem_cons_of_mem _ hx) y hy
    unfold addFiles
    rw [ih hnext, mem_cons]
    constructor
    · grind [mem_of_mem_insertFile]
    · grind [mem_insertFile_of_mem, mem_insertFile_self]

theorem addFiles_bySmallest (added : List (FileMetaData K)) :
    ∀ {st : LevelState K}, BySmallest st.addedFiles → BySmallest (st.addFiles added).addedFiles := by
  induction added with
  | nil => intro st h; exact h
  | cons f added ih => intro st h; exact ih (insertFile_bySmallest h)

theorem mem_apply_added {st : LevelState K} {deleted : List Nat}
    (hfresh : FreshAt st.addedFiles added) (g : FileMetaData K) :
    g ∈ (st.apply deleted added).addedFiles ↔ g ∈ st.addedFiles ∨ g ∈ added := by
  have hfresh' : FreshAt { st with deletedFiles := st.deletedFiles ++ deleted }.addedFiles added :=
    hfresh
  exact addFiles_added hfresh' g

theorem mem_apply_deleted {st : LevelState K} {deleted : List Nat} {n : Nat} :
    n ∈ (st.apply deleted added).deletedFiles ↔
      (n ∈ st.deletedFiles ∨ n ∈ deleted) ∧ ∀ f ∈ added, f.number ≠ n := by
  unfold apply
  rw [addFiles_deleted]
  simp

end LevelState

namespace Version

def Fresh (v : Version K) (edit : VersionEdit K) : Prop :=
  ∀ level, FreshAt (v.files level) (edit.newFilesAt level)

/-- Every level is sorted by `BySmallestKey`. -/
def Canonical (v : Version K) : Prop := ∀ level, BySmallest (v.files level)

theorem mem_applyEdit {v : Version K} {edit : VersionEdit K} {level : Nat}
    (hfresh : FreshAt (v.files level) (edit.newFilesAt level)) (hlevel : level < kNumLevels)
    {f : FileMetaData K} :
    f ∈ (v.applyEdit edit).files level ↔
      f ∈ edit.newFilesAt level ∨ f ∈ v.files level ∧ f.number ∉ edit.deletedAt level := by
  have hempty : FreshAt (Builder.empty (K := K) level).addedFiles (edit.newFilesAt level) :=
    ⟨hfresh.1, fun _ _ g hg => by simp [Builder.empty] at hg⟩
  unfold applyEdit Builder.saveTo Builder.apply
  dsimp only
  rw [if_pos hlevel, LevelState.mem_save, LevelState.mem_apply_added hempty,
    LevelState.mem_apply_deleted]
  simp only [Builder.empty, not_mem_nil, false_or]
  constructor
  · intro ⟨hmem, hdel⟩
    obtain hf | hf := hmem
    · by_cases hd : f.number ∈ edit.deletedAt level
      · exfalso
        apply hdel
        exact ⟨hd, fun g hg => Ne.symm (hfresh.2 g hg f hf)⟩
      · exact Or.inr ⟨hf, hd⟩
    · exact Or.inl hf
  · grind

theorem applyEdit_canonical {v : Version K} {edit : VersionEdit K} (h : v.Canonical)
    (hfresh : v.Fresh edit) : (v.applyEdit edit).Canonical := by
  intro level
  unfold applyEdit Builder.saveTo Builder.apply
  dsimp only
  split_ifs with hlevel
  · have hempty : FreshAt (Builder.empty (K := K) level).addedFiles (edit.newFilesAt level) :=
      ⟨(hfresh level).1, fun _ _ g hg => by simp [Builder.empty] at hg⟩
    refine List.Pairwise.filter _ (LevelState.mergeFiles_bySmallest (h level)
      (LevelState.addFiles_bySmallest _ List.Pairwise.nil) ?_)
    intro g hg f hf
    obtain hf | hf := (LevelState.mem_apply_added hempty f).mp hf
    · simp [Builder.empty] at hf
    · exact bySmallestKey_total ((hfresh level).2 f hf g hg)
  · exact List.Pairwise.nil

end Version

/-! ## Replaying edits -/

/-- The builder has accumulated edits that lead from the empty version to `v`. -/
structure Tracks (b : Builder K) (v : Version K) : Prop where
  mem : ∀ level, level < kNumLevels → ∀ f, f ∈ v.files level ↔
    f ∈ (b level).addedFiles ∧ f.number ∉ (b level).deletedFiles
  sorted : ∀ level, BySmallest (b level).addedFiles

namespace Tracks

theorem apply {b : Builder K} {v : Version K} {edit : VersionEdit K} (h : Tracks b v)
    (hfresh : ∀ level, FreshAt (b level).addedFiles (edit.newFilesAt level)) :
    Tracks (b.apply edit) (v.applyEdit edit) := by
  refine ⟨?_, fun level => LevelState.addFiles_bySmallest _ (h.sorted level)⟩
  intro level hlevel f
  have hv : FreshAt (v.files level) (edit.newFilesAt level) :=
    ⟨(hfresh level).1, fun x hx y hy =>
      (hfresh level).2 x hx y ((h.mem level hlevel y).mp hy).1⟩
  rw [Version.mem_applyEdit hv hlevel, h.mem level hlevel, Builder.apply,
    LevelState.mem_apply_added (hfresh level), LevelState.mem_apply_deleted]
  constructor
  · grind
  · intro ⟨hmem, hdel⟩
    obtain hf | hf := hmem
    · right
      have hnew : ∀ g ∈ edit.newFilesAt level, g.number ≠ f.number :=
        fun g hg => Ne.symm ((hfresh level).2 g hg f hf)
      exact ⟨⟨hf, fun hd => hdel ⟨Or.inl hd, hnew⟩⟩, fun hd => hdel ⟨Or.inr hd, hnew⟩⟩
    · exact Or.inl hf

theorem saveTo_eq {b : Builder K} {v base : Version K} (h : Tracks b v) (hv : v.Canonical)
    (hbase : ∀ level, base.files level = []) : b.saveTo base = v := by
  apply Version.ext
  funext level
  by_cases hlevel : level < kNumLevels
  · have hsave : (b.saveTo base).files level = (b level).save [] := by
      unfold Builder.saveTo
      dsimp only
      rw [if_pos hlevel, hbase]
    rw [hsave]
    refine BySmallest.ext ?_ (hv level) ?_
    · refine List.Pairwise.filter _ (LevelState.mergeFiles_bySmallest List.Pairwise.nil
        (h.sorted level) ?_)
      intro g hg
      simp at hg
    · intro f
      rw [LevelState.mem_save, h.mem level hlevel]
      simp
  · rw [(b.saveTo base).files_eq_nil level (not_lt.mp hlevel),
      v.files_eq_nil level (not_lt.mp hlevel)]

end Tracks

end LevelDB
