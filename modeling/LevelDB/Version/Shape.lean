/-
  The shape of versions: level 0 is ordered by smallest key and number, deeper levels are
  sorted and disjoint, and no file number occurs twice.

  `Version.Shape` speaks of members only, apart from `canonical`; `Shape.levelsSorted` turns
  it into the order of the lists, and `saveChecked_eq` says that the assertion in
  `MaybeAddFile` holds for such lists.
-/
import LevelDB.Compaction.Install
import LevelDB.Lib.Trace
import LevelDB.Version.PickLevel

namespace LevelDB

open List SortedList Transition

variable {K : Type} [LinearOrder K]

/-! ## The shape -/

namespace Version

structure Shape (v : Version K) : Prop where
  canonical : v.Canonical
  ranged : v.Ranged
  apart : ∀ level, 1 ≤ level → ∀ f ∈ v.files level, ∀ g ∈ v.files level, f ≠ g →
    f.largest < g.smallest ∨ g.largest < f.smallest
  numbers : ∀ i j, ∀ f ∈ v.files i, ∀ g ∈ v.files j, f.number = g.number → i = j ∧ f = g

def empty : Version K := ⟨fun _ => [], nil_beyond⟩

theorem empty_shape : (empty : Version K).Shape where
  canonical := fun _ => List.Pairwise.nil
  ranged := fun _ _ hf => absurd hf not_mem_nil
  apart := fun _ _ _ hf => absurd hf not_mem_nil
  numbers := fun _ _ _ hf => absurd hf not_mem_nil

omit [LinearOrder K] in
theorem fresh_of_ne {v : Version K} {edit : VersionEdit K}
    (hnodup : (edit.newFiles.map fun p => p.2.number).Nodup)
    (hnum : ∀ p ∈ edit.newFiles, ∀ l, ∀ g ∈ v.files l, g.number ≠ p.2.number) : v.Fresh edit := by
  intro level
  refine ⟨?_, fun f hf g hg => hnum _ (VersionEdit.mem_newFilesAt.mp hf) level g hg⟩
  unfold VersionEdit.newFilesAt
  rw [List.map_map]
  exact hnodup.sublist (filter_sublist.map _)

theorem new_or_old_of_mem {v : Version K} {edit : VersionEdit K} (hfresh : v.Fresh edit) {l : Nat} {g : FileMetaData K}
    (hg : g ∈ (v.applyEdit edit).files l) : (l, g) ∈ edit.newFiles ∨ g ∈ v.files l := by
  obtain h | h := (mem_applyEdit (hfresh l) (level_lt hg)).mp hg
  · exact Or.inl (VersionEdit.mem_newFilesAt.mp h)
  · exact Or.inr h.1

namespace Shape

variable {v v' : Version K}

theorem levelsSorted (h : v.Shape) : v.LevelsSorted := by
  intro level hlevel
  refine List.Pairwise.imp_of_mem ?_ (h.canonical level)
  intro f g hf hg hfg
  have hne : f ≠ g := by
    intro heq
    subst heq
    exact bySmallestKey_asymm hfg hfg
  obtain hlt | hlt := h.apart level hlevel f hf g hg hne
  · exact hlt
  · exfalso
    have hgf : g.smallest < f.smallest := (h.ranged level g hg).trans_lt hlt
    obtain hs | ⟨hs, -⟩ := bySmallestKey_iff.mp hfg
    · exact lt_asymm hs hgf
    · exact hgf.ne' hs

theorem numbers_nodup (h : v.Shape) :
    (((List.range kNumLevels).flatMap v.files).map FileMetaData.number).Nodup := by
  have hpair : ((List.range kNumLevels).flatMap v.files).Pairwise fun f g =>
      f.number ≠ g.number := by
    refine pairwise_flatMap.mpr ⟨?_, ?_⟩
    · intro level _
      refine (h.canonical level).nodup.imp_of_mem ?_
      intro f g hf hg hne heq
      exact hne (h.numbers level level f hf g hg heq).2
    · refine nodup_range.imp ?_
      intro i j hij f hf g hg heq
      exact hij (h.numbers i j f hf g hg heq).1
  exact pairwise_map.mpr hpair

theorem extend (h : v.Shape) (new : Nat → FileMetaData K → Prop)
    (hmem : ∀ l, ∀ g ∈ v'.files l, g ∈ v.files l ∨ new l g) (hcanon : v'.Canonical)
    (hranged : ∀ l f, new l f → f.smallest ≤ f.largest)
    (hapart : ∀ l, 1 ≤ l → ∀ f, new l f → ∀ g ∈ v'.files l, f ≠ g →
      f.largest < g.smallest ∨ g.largest < f.smallest)
    (hnumbers : ∀ i f, new i f → ∀ j, ∀ g ∈ v'.files j, f.number = g.number → i = j ∧ f = g) :
    v'.Shape := by
  refine ⟨hcanon, ?_, ?_, ?_⟩
  · intro l g hg
    obtain hg | hg := hmem l g hg
    · exact h.ranged l g hg
    · exact hranged l g hg
  · intro l hl f hf g hg hne
    obtain hf' | hf' := hmem l f hf
    · obtain hg' | hg' := hmem l g hg
      · exact h.apart l hl f hf' g hg' hne
      · exact (hapart l hl g hg' f hf (Ne.symm hne)).symm
    · exact hapart l hl f hf' g hg hne
  · intro i j f hf g hg heq
    obtain hf' | hf' := hmem i f hf
    · obtain hg' | hg' := hmem j g hg
      · exact h.numbers i j f hf' g hg' heq
      · obtain ⟨hji, hgf⟩ := hnumbers j g hg' i f hf heq.symm
        exact ⟨hji.symm, hgf.symm⟩
    · exact hnumbers i f hf' j g hg heq

theorem applyEdit (h : v.Shape) {edit : VersionEdit K} (hfresh : v.Fresh edit)
    (hranged : ∀ l f, (l, f) ∈ edit.newFiles → f.smallest ≤ f.largest)
    (hapart : ∀ l, 1 ≤ l → ∀ f, (l, f) ∈ edit.newFiles → ∀ g ∈ (v.applyEdit edit).files l, f ≠ g →
      f.largest < g.smallest ∨ g.largest < f.smallest)
    (hnumbers : ∀ i f, (i, f) ∈ edit.newFiles → ∀ j, ∀ g ∈ (v.applyEdit edit).files j,
      f.number = g.number → i = j ∧ f = g) : (v.applyEdit edit).Shape :=
  h.extend (fun l f => (l, f) ∈ edit.newFiles) (fun _ _ hg => (new_or_old_of_mem hfresh hg).symm)
    (applyEdit_canonical h.canonical hfresh) hranged hapart hnumbers

end Shape

end Version

/-! ## Trivial moves -/

def Compaction.moveEdit (c : Compaction K) : VersionEdit K :=
  let edit : VersionEdit K := { compactPointers := [(c.level, c.compactPointer)] }
  c.inputs0.head?.elim edit fun f => (edit.removeFile c.level f.number).addFile (c.level + 1) f

section Move

variable {v : Version K} {c : Compaction K} {f : FileMetaData K}

omit [LinearOrder K] in
theorem inputs_of_isTrivialMove {maxFileSize : Nat} (h : c.isTrivialMove maxFileSize = true) :
    ∃ f, c.inputs0 = [f] ∧ c.inputs1 = [] := by
  simp_all [Compaction.isTrivialMove, Bool.and_eq_true, beq_iff_eq, length_eq_one_iff, length_eq_zero_iff]

omit [LinearOrder K] in
theorem moveEdit_files (h0 : c.inputs0 = [f]) :
    c.moveEdit.newFiles = [(c.level + 1, f)] ∧ c.moveEdit.deletedFiles = [(c.level, f.number)] := by
  unfold Compaction.moveEdit
  rw [h0]
  exact ⟨rfl, rfl⟩

omit [LinearOrder K] in
theorem mem_moveEdit_newFilesAt (h0 : c.inputs0 = [f]) {level : Nat} {g : FileMetaData K} :
    g ∈ c.moveEdit.newFilesAt level ↔ level = c.level + 1 ∧ g = f := by
  rw [VersionEdit.mem_newFilesAt, (moveEdit_files h0).1, mem_singleton, Prod.mk.injEq]

theorem moveEdit_freshAt (h : v.Shape) (hc : Closed v c) (h0 : c.inputs0 = [f]) (level : Nat) :
    FreshAt (v.files level) (c.moveEdit.newFilesAt level) := by
  refine ⟨?_, ?_⟩
  · unfold VersionEdit.newFilesAt
    rw [(moveEdit_files h0).1]
    refine List.Nodup.sublist ?_ (nodup_singleton f.number)
    by_cases hl : c.level + 1 = level
    · simp [hl]
    · simp [hl]
  · intro x hx g hg heq
    obtain ⟨rfl, rfl⟩ := (mem_moveEdit_newFilesAt h0).mp hx
    have hx0 := hc.sub0 x (by rw [h0]; exact mem_singleton.mpr rfl)
    have := (h.numbers _ _ g hg x hx0 heq).1
    omega

theorem mem_moveEdit_files (h : v.Shape) (hc : Closed v c) (hlevel : c.level + 1 < kNumLevels)
    (h0 : c.inputs0 = [f]) (h1 : c.inputs1 = []) {l : Nat} {g : FileMetaData K} :
    g ∈ (v.applyEdit c.moveEdit).files l ↔
      (l = c.level + 1 ∧ g = f) ∨ (g ∈ v.files l ∧ ¬ c.Removes l g) := by
  have hf : f ∈ v.files c.level := hc.sub0 f (by rw [h0]; exact mem_singleton.mpr rfl)
  by_cases hl : l < kNumLevels
  · rw [Version.mem_applyEdit (moveEdit_freshAt h hc h0 l) hl, mem_moveEdit_newFilesAt h0,
      VersionEdit.mem_deletedAt, (moveEdit_files h0).2, mem_singleton, Prod.mk.injEq]
    unfold Compaction.Removes
    rw [h0, h1]
    simp only [mem_singleton, not_mem_nil, and_false, or_false]
    refine or_congr_right (and_congr_right fun hg => not_congr (and_congr_right fun hl => ?_))
    subst hl
    exact ⟨fun heq => (h.numbers _ _ g hg f hf heq).2, fun heq => by rw [heq]⟩
  · constructor
    · intro hg
      exact absurd (Version.level_lt hg) hl
    · intro hg
      obtain ⟨rfl, -⟩ | ⟨hg, -⟩ := hg
      · exact absurd hlevel hl
      · exact absurd (Version.level_lt hg) hl

theorem Version.Shape.move (h : v.Shape) (hc : Closed v c) (hlevel : c.level + 1 < kNumLevels)
    (h0 : c.inputs0 = [f]) (h1 : c.inputs1 = []) : (v.applyEdit c.moveEdit).Shape := by
  have hf : f ∈ v.files c.level := hc.sub0 f (by rw [h0]; exact mem_singleton.mpr rfl)
  have hnew : ∀ {l x}, (l, x) ∈ c.moveEdit.newFiles → l = c.level + 1 ∧ x = f := by
    intro l x hx
    rw [(moveEdit_files h0).1, mem_singleton] at hx
    exact Prod.mk.inj hx
  refine h.applyEdit (moveEdit_freshAt h hc h0) ?_ ?_ ?_
  · intro l x hx
    rw [(hnew hx).2]
    exact h.ranged _ f hf
  · intro l _ x hx g hg hne
    obtain ⟨rfl, rfl⟩ := hnew hx
    obtain ⟨-, hgx⟩ | ⟨hg, -⟩ := (mem_moveEdit_files h hc hlevel h0 h1).mp hg
    · exact absurd hgx.symm hne
    · have hin : x ∈ c.inputs0 ++ c.inputs1 := by
        rw [h0]
        exact mem_cons_self
      obtain hlt | hlt := hc.hull g hg (by rw [h1]; exact not_mem_nil)
      · exact Or.inr (hlt x hin)
      · exact Or.inl (hlt x hin)
  · intro i x hx j g hg heq
    obtain ⟨rfl, rfl⟩ := hnew hx
    obtain ⟨hj, hgx⟩ | ⟨hg, hstays⟩ := (mem_moveEdit_files h hc hlevel h0 h1).mp hg
    · exact ⟨hj.symm, hgx.symm⟩
    · -- the file that moves is not among those that stay
      exfalso
      obtain ⟨hj, hgx⟩ := h.numbers j c.level g hg x hf heq.symm
      apply hstays
      exact Or.inl ⟨hj, by rw [h0, hgx]; exact mem_singleton.mpr rfl⟩

end Move

/-! ## Compactions -/

def Compaction.InHull (c : Compaction K) (f : FileMetaData K) : Prop :=
  (∃ x ∈ c.inputs0 ++ c.inputs1, x.smallest ≤ f.smallest) ∧
    ∃ x ∈ c.inputs0 ++ c.inputs1, f.largest ≤ x.largest

namespace Version

variable {v : Version K} {edit : VersionEdit K} {c : Compaction K}

/-- A table as the database adds it to `v`: with an entry, with keys that can be stored, and
    with a number of its own. -/
structure NewFile (v : Version K) (f : FileMetaData K) : Prop where
  number : ∀ l, ∀ g ∈ v.files l, g.number ≠ f.number
  ranged : f.smallest ≤ f.largest
  tag : f.largest.tag ≤ maxTag

theorem Shape.compaction (h : v.Shape) (hc : Closed v c) {f : FileMetaData K} (hf : NewFile v f)
    (hhull : c.InHull f) : (v.applyEdit (compactionEdit c (some f))).Shape := by
  have hfresh : ∀ x ∈ some f, ∀ level, ∀ g ∈ v.files level, g.number ≠ x.number := by
    intro x hx
    rw [← Option.some.inj hx]
    exact hf.number
  have hnew : ∀ {l x}, (l, x) ∈ (compactionEdit c (some f)).newFiles → l = c.level + 1 ∧ x = f := by
    intro l x hx
    rw [compactionEdit_newFiles] at hx
    simpa using hx
  have hstays : ∀ {l g}, g ∈ (v.applyEdit (compactionEdit c (some f))).files l →
      l = c.level + 1 ∧ g = f ∨ g ∈ v.files l ∧ ¬ c.Removes l g := by
    intro l g hg
    have hinput : ∀ {level : Nat} {inputs : List (FileMetaData K)}, (∀ x ∈ inputs, x ∈ v.files level) →
        ∀ x ∈ inputs, ∀ y ∈ v.files level, y.number = x.number → y ∈ inputs := by
      intro level inputs hsub x hx y hy heq
      rw [(h.numbers _ _ y hy x (hsub x hx) heq).2]
      exact hx
    have hmem := (mem_compactionEdit_files_of (hinput hc.sub0) (hinput hc.sub1) hfresh
      (level_lt hg)).mp hg
    rw [Option.mem_some_iff, @eq_comm _ f g] at hmem
    exact hmem
  refine h.applyEdit (compactionEdit_freshAt c hfresh) ?_ ?_ ?_
  · intro l x hx
    rw [(hnew hx).2]
    exact hf.ranged
  · intro l _ x hx g hg hne
    obtain ⟨rfl, rfl⟩ := hnew hx
    obtain ⟨-, hgx⟩ | ⟨hg, hs⟩ := hstays hg
    · exact absurd hgx.symm hne
    · obtain ⟨⟨a, ha, hax⟩, b, hb, hxb⟩ := hhull
      obtain hlt | hlt := hc.hull g hg fun hmem => hs (Or.inr ⟨rfl, hmem⟩)
      · exact Or.inr ((hlt a ha).trans_le hax)
      · exact Or.inl (hxb.trans_lt (hlt b hb))
  · grind

/-! ## New tables -/

theorem Shape.add (h : v.Shape) (hnew : ∀ p ∈ edit.newFiles, NewFile v p.2)
    (hnodup : (edit.newFiles.map fun p => p.2.number).Nodup)
    (hapart : ∀ l, 1 ≤ l → ∀ f, (l, f) ∈ edit.newFiles →
      ∀ g, (l, g) ∈ edit.newFiles ∨ g ∈ v.files l → f ≠ g →
      f.largest < g.smallest ∨ g.largest < f.smallest) : (v.applyEdit edit).Shape := by
  have hfresh : v.Fresh edit := fresh_of_ne hnodup fun p hp => (hnew p hp).number
  refine h.applyEdit hfresh (fun l f hf => (hnew _ hf).ranged) ?_ ?_
  · intro l hl f hf g hg hne
    exact hapart l hl f hf g (new_or_old_of_mem hfresh hg) hne
  · intro i f hf j g hg heq
    obtain hg | hg := new_or_old_of_mem hfresh hg
    · exact Prod.mk.inj (inj_on_of_nodup_map hnodup hf hg heq)
    · exact absurd heq.symm ((hnew _ hf).number j g hg)

/-! ## What the database issues -/

section Issued

variable [Inhabited K]

/-- The edits that the database issues on `v`. Those of flushes and of recovery also set log
    numbers. -/
inductive Issued (v : Version K) (edit : VersionEdit K) : Prop where
  | flush {f : FileMetaData K} (maxFileSize : Nat) (hf : NewFile v f)
      (hnew : edit.newFiles = [(v.pickLevelForMemTableOutput maxFileSize f.smallest.userKey
        f.largest.userKey, f)]) (hdel : edit.deletedFiles = [])
  | move {c : Compaction K} {maxFileSize : Nat} (hc : Picked v c)
      (htrivial : c.isTrivialMove maxFileSize = true) (hedit : edit = c.moveEdit)
  | compaction {c : Compaction K} {f : FileMetaData K} (hc : Picked v c) (hf : NewFile v f)
      (hhull : c.InHull f) (hedit : edit = compactionEdit c (some f))
  | recovery {files : List (FileMetaData K)} (hfiles : ∀ f ∈ files, NewFile v f)
      (hnodup : (files.map FileMetaData.number).Nodup)
      (hnew : edit.newFiles = files.map fun f => (0, f)) (hdel : edit.deletedFiles = [])

/-- The shape, and that no key has a tag above `maxTag`: `PickLevelForMemTableOutput` relies
    on the latter. -/
structure Stored (v : Version K) : Prop where
  shape : v.Shape
  tags : ∀ level, ∀ f ∈ v.files level, f.largest.tag ≤ maxTag

omit [Inhabited K] in
theorem empty_stored : (empty : Version K).Stored :=
  ⟨empty_shape, fun _ _ hf => absurd hf not_mem_nil⟩

namespace Issued

theorem fresh (h : Issued v edit) (hv : v.Shape) : v.Fresh edit := by
  cases h with
  | flush maxFileSize hf hnew _ =>
    refine fresh_of_ne (by rw [hnew]; exact nodup_singleton _) ?_
    rw [hnew]
    exact forall_mem_singleton.mpr hf.number
  | move hc htrivial hedit =>
    obtain ⟨f, h0, -⟩ := inputs_of_isTrivialMove htrivial
    rw [hedit]
    exact moveEdit_freshAt hv (hc.closed hv.levelsSorted hv.ranged) h0
  | compaction hc hf _ hedit =>
    rw [hedit]
    exact compactionEdit_freshAt _ fun x hx => Option.some.inj hx ▸ hf.number
  | recovery hfiles hnodup hnew _ =>
    refine fresh_of_ne (by rw [hnew, List.map_map]; exact hnodup) ?_
    rw [hnew]
    exact List.forall_mem_map.mpr fun f hf => (hfiles f hf).number

theorem new_or_moved (h : Issued v edit) (hv : v.Shape) {l : Nat} {f : FileMetaData K}
    (hf : (l, f) ∈ edit.newFiles) : NewFile v f ∨ ∃ i, f ∈ v.files i := by
  cases h with
  | flush maxFileSize hx hnew _ =>
    rw [hnew, mem_singleton] at hf
    rw [(Prod.mk.inj hf).2]
    exact Or.inl hx
  | @move c _ hc htrivial hedit =>
    obtain ⟨x, h0, -⟩ := inputs_of_isTrivialMove htrivial
    rw [hedit, (moveEdit_files h0).1, mem_singleton] at hf
    rw [(Prod.mk.inj hf).2]
    exact Or.inr ⟨c.level, (hc.closed hv.levelsSorted hv.ranged).sub0 x (by rw [h0]; simp)⟩
  | @compaction c x hc hx _ hedit =>
    simp_all [compactionEdit_newFiles]
  | recovery hfiles _ hnew _ =>
    simp_all

theorem shape (h : Issued v edit) (hv : v.Stored) : (v.applyEdit edit).Shape := by
  have hsort := hv.shape.levelsSorted
  have hranged := hv.shape.ranged
  cases h with
  | @flush f maxFileSize hf hnew _ =>
    have hmem : ∀ {l x}, (l, x) ∈ edit.newFiles → l = v.pickLevelForMemTableOutput maxFileSize
        f.smallest.userKey f.largest.userKey ∧ x = f := by
      intro l x hx
      rw [hnew, mem_singleton] at hx
      exact Prod.mk.inj hx
    refine hv.shape.add ?_ (by rw [hnew]; exact nodup_singleton _) ?_
    · intro p hp
      rw [(hmem hp).2]
      exact hf
    · intro l hl x hx g hg hne
      obtain ⟨rfl, rfl⟩ := hmem hx
      obtain hg | hg := hg
      · exact absurd (hmem hg).2.symm hne
      · obtain hlt | hlt := pickLevelForMemTableOutput_spec hsort hranged hv.tags maxFileSize hl _
          (le_refl _) g hg
        · exact Or.inr (InternalKey.lt_of_userKey_lt hlt)
        · exact Or.inl (InternalKey.lt_of_userKey_lt hlt)
  | move hc htrivial hedit =>
    obtain ⟨f, h0, h1⟩ := inputs_of_isTrivialMove htrivial
    rw [hedit]
    exact hv.shape.move (hc.closed hsort hranged) hc.level_lt h0 h1
  | compaction hc hf hhull hedit =>
    rw [hedit]
    exact hv.shape.compaction (hc.closed hsort hranged) hf hhull
  | recovery hfiles hnodup hnew _ =>
    refine hv.shape.add ?_ (by rw [hnew, List.map_map]; exact hnodup) ?_
    · rw [hnew]
      exact List.forall_mem_map.mpr hfiles
    · grind

theorem stored (h : Issued v edit) (hv : v.Stored) : (v.applyEdit edit).Stored := by
  refine ⟨h.shape hv, ?_⟩
  intro level f hf
  obtain hnew | hold := new_or_old_of_mem (h.fresh hv.shape) hf
  · obtain hf | ⟨i, hf⟩ := h.new_or_moved hv.shape hnew
    · exact hf.tag
    · exact hv.tags i f hf
  · exact hv.tags level f hold

end Issued

end Issued

end Version

/-! ## The assertion of `MaybeAddFile` -/

namespace LevelState

/-- `Builder::MaybeAddFile`; `none` if its assertion fails. -/
def maybeAddFile (st : LevelState K) (level : Nat) (files : List (FileMetaData K))
    (f : FileMetaData K) : Option (List (FileMetaData K)) :=
  if f.number ∈ st.deletedFiles then some files
  else if 0 < level ∧ ¬ files.getLast?.all fun g => decide (g.largest < f.smallest) then none
  else some (files ++ [f])

/-- `SaveTo` at one level, with the assertions. -/
def saveChecked (st : LevelState K) (level : Nat) (base : List (FileMetaData K)) :
    Option (List (FileMetaData K)) :=
  (mergeFiles base st.addedFiles).foldlM (st.maybeAddFile level) []

theorem saveChecked_eq {st : LevelState K} {level : Nat} {base : List (FileMetaData K)}
    (h : 0 < level → SortedDisjoint (st.save base)) :
    st.saveChecked level base = some (st.save base) := by
  have hloop : ∀ todo files : List (FileMetaData K),
      (0 < level → SortedDisjoint (files ++ todo.filter fun f => decide (f.number ∉ st.deletedFiles))) →
      todo.foldlM (st.maybeAddFile level) files =
        some (files ++ todo.filter fun f => decide (f.number ∉ st.deletedFiles)) := by
    intro todo
    induction todo with
    | nil => intro files _; simp
    | cons f todo ih =>
      intro files hsort
      rw [foldlM_cons]
      by_cases hdel : f.number ∈ st.deletedFiles
      · rw [filter_cons_of_neg (by simpa using hdel)] at hsort ⊢
        have hstep : st.maybeAddFile level files f = some files := if_pos hdel
        rw [hstep]
        exact ih files hsort
      · rw [filter_cons_of_pos (by simpa using hdel), append_cons] at hsort ⊢
        have hlast : ¬ (0 < level ∧
            ¬ files.getLast?.all fun g => decide (g.largest < f.smallest)) := by
          intro ⟨hlevel, hlast⟩
          apply hlast
          rw [Option.all_eq_true]
          intro g hg
          have hpair := (pairwise_append.mp (pairwise_append.mp (hsort hlevel)).1).2.2
          exact decide_eq_true (hpair g (mem_of_getLast? hg) f (mem_singleton.mpr rfl))
        have hstep : st.maybeAddFile level files f = some (files ++ [f]) := by
          unfold maybeAddFile
          rw [if_neg hdel, if_neg hlast]
        rw [hstep]
        exact ih (files ++ [f]) hsort
  exact hloop _ [] h

end LevelState

/-! ## All runs -/

section Run

variable [Inhabited K]

abbrev EditRun : List (VersionEdit K) → Version K → Prop :=
  Trace .empty fun v edit v' => v.Issued edit ∧ v' = v.applyEdit edit

theorem editRun_stored {edits : List (VersionEdit K)} {v : Version K} (h : EditRun edits v) :
    v.Stored := by
  refine h.invariant (I := fun _ v => v.Stored) Version.empty_stored ?_
  intro edits edit v v' _ hv hstep
  obtain ⟨hissued, rfl⟩ := hstep
  exact hissued.stored hv

/-- Every version that edits of the database lead to is sorted at level 0 by smallest key and
    number, sorted and disjoint at the other levels, and has no file number twice. Each further
    edit passes the assertions, and turns the files of a level into those not deleted and those
    added. -/
theorem editRun_shape {edits : List (VersionEdit K)} {v : Version K} (h : EditRun edits v) :
    (v.files 0).Pairwise (fun f g => f.smallest < g.smallest ∨
        f.smallest = g.smallest ∧ f.number < g.number) ∧
      (∀ level, 1 ≤ level → (v.files level).Pairwise fun f g => f.largest < g.smallest) ∧
      (((List.range kNumLevels).flatMap v.files).map FileMetaData.number).Nodup ∧
      ∀ edit, v.Issued edit → ∀ level < kNumLevels,
        (Builder.empty.apply edit level).saveChecked level (v.files level) =
            some ((v.applyEdit edit).files level) ∧
          ∀ f, f ∈ (v.applyEdit edit).files level ↔
            (f ∈ v.files level ∧ (level, f.number) ∉ edit.deletedFiles) ∨
              (level, f) ∈ edit.newFiles := by
  have hv := editRun_stored h
  refine ⟨(hv.shape.canonical 0).imp bySmallestKey_iff.mp, hv.shape.levelsSorted,
    hv.shape.numbers_nodup, ?_⟩
  intro edit hissued level hlevel
  refine ⟨?_, ?_⟩
  · have hfiles : (v.applyEdit edit).files level =
        (Builder.empty.apply edit level).save (v.files level) := if_pos hlevel
    rw [hfiles]
    refine LevelState.saveChecked_eq fun hpos => ?_
    rw [← hfiles]
    exact (hissued.shape hv).levelsSorted level hpos
  · intro f
    rw [Version.mem_applyEdit (hissued.fresh hv.shape level) hlevel, VersionEdit.mem_newFilesAt,
      VersionEdit.mem_deletedAt]
    exact or_comm

end Run

/-! ## An example: two flushes and a compaction -/

section Example

open Version

/-- A table for the keys from 1 to `last`. -/
def shapeFile (number last sequence : Nat) : FileMetaData Nat :=
  ⟨number, 1, ⟨1, packSequenceAndType sequence .value⟩, ⟨last, packSequenceAndType sequence .value⟩⟩

def shapeFlushed : Version Nat :=
  (Version.empty.applyEdit { newFiles := [(2, shapeFile 1 1 1)] }).applyEdit
    { newFiles := [(1, shapeFile 2 2 2)] }

/-- `CompactRange` of level 1 over all keys. -/
def shapeCompaction : Compaction Nat :=
  shapeFlushed.setupOtherInputs 2097152 1
    (truncateInputs 2097152 0 (shapeFlushed.getOverlappingInputs 1 none none))

theorem newFile_of_levels {v : Version Nat} {f : FileMetaData Nat}
    (h : (∀ l < kNumLevels, ∀ g ∈ v.files l, g.number ≠ f.number) ∧ f.smallest ≤ f.largest ∧
      f.largest.tag ≤ maxTag) : NewFile v f :=
  ⟨fun l g hg => h.1 l (level_lt hg) g hg, h.2.1, h.2.2⟩

theorem editRun_shape_compacted :
    ∃ v : Version Nat, EditRun [{ newFiles := [(2, shapeFile 1 1 1)] },
        { newFiles := [(1, shapeFile 2 2 2)] },
        compactionEdit shapeCompaction (some (shapeFile 3 2 2))] v ∧
      (v.files 2).map FileMetaData.number = [3] ∧
      ∀ level, 1 ≤ level → (v.files level).Pairwise fun f g => f.largest < g.smallest := by
  have hfirst : EditRun [{ newFiles := [(2, shapeFile 1 1 1)] }] _ :=
    Trace.start.step ⟨.flush (f := shapeFile 1 1 1) 2097152 (newFile_of_levels (by decide)) rfl rfl, rfl⟩
  have hflushed : EditRun [{ newFiles := [(2, shapeFile 1 1 1)] },
      { newFiles := [(1, shapeFile 2 2 2)] }] shapeFlushed :=
    hfirst.step ⟨.flush (f := shapeFile 2 2 2) 2097152 (newFile_of_levels (by decide +kernel)) rfl rfl,
      rfl⟩
  have hpicked : Picked shapeFlushed shapeCompaction :=
    .manual 2097152 none none (show 1 + 1 < kNumLevels by decide) rfl
  have hrun := hflushed.step ⟨.compaction hpicked
    (f := shapeFile 3 2 2) (newFile_of_levels (by decide +kernel))
    ⟨⟨shapeFile 2 2 2, by decide +kernel, by decide⟩, shapeFile 2 2 2, by decide +kernel, by decide⟩
    rfl, rfl⟩
  exact ⟨_, hrun, by decide +kernel, (editRun_shape hrun).2.1⟩

end Example

end LevelDB
