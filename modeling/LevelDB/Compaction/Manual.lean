/-
  Manual compactions (`DBImpl::TEST_CompactRange`, `BackgroundCompaction` and
  `VersionSet::CompactRange`).

  A round compacts some of the files of the level that meet the range, and the next one starts at
  the largest key of the last file that was taken. Only the files of the level matter, so the
  outputs, which go to the next level, may be any files.
-/
import LevelDB.Version.Shape

namespace LevelDB

open List SortedList

variable {K : Type} [LinearOrder K] [Inhabited K]

/-! ## The rounds -/

/-- The rounds of `TEST_CompactRange` at a level, each with its turn of `BackgroundCompaction`,
    up to the one in which `CompactRange` returns null; `none` if `fuel` rounds do not get
    there. -/
def compactRangeLoop (maxFileSize level : Nat) (rangeEnd : Option (InternalKey K))
    (output : Version K → Compaction K → Option (FileMetaData K)) :
    Nat → Version K → Option (InternalKey K) → Option (Version K)
  | 0, _, _ => none
  | fuel + 1, v, rangeBegin =>
    match v.compactRange maxFileSize level rangeBegin rangeEnd with
    | none => some v
    | some c =>
      compactRangeLoop maxFileSize level rangeEnd output fuel
        (v.applyEdit (compactionEdit c (output v c))) (c.inputs0.getLast?.map FileMetaData.largest)

/-! ## The inputs of a round -/

structure LevelShape (level : Nat) (files : List (FileMetaData K)) : Prop where
  sorted : 0 < level → SortedDisjoint files
  ranged : ∀ f ∈ files, f.smallest ≤ f.largest

omit [Inhabited K] in
theorem LevelShape.sublist {level : Nat} {files rest : List (FileMetaData K)}
    (h : LevelShape level files) (hrest : rest.Sublist files) : LevelShape level rest where
  sorted := fun hpos => (h.sorted hpos).sublist hrest
  ranged := fun f hf => h.ranged f (hrest.subset hf)

section Round

variable {v : Version K} {level : Nat} {picked : List (FileMetaData K)}

theorem subset_setupOtherInputs (maxFileSize : Nat) (hlevel : LevelShape level (v.files level))
    (hsub : ∀ f ∈ picked, f ∈ v.files level) :
    ∀ f ∈ picked, f ∈ (v.setupOtherInputs maxFileSize level picked).inputs0 := by
  intro f hf
  obtain ⟨hkeep, hin, -⟩ := addBoundaryInputs_spec hlevel.ranged hsub
  unfold Version.setupOtherInputs
  dsimp only
  split_ifs
  · obtain ⟨hkeep', -⟩ := addBoundaryInputs_spec hlevel.ranged fun g =>
      (mem_of_getOverlappingInputs : g ∈ v.getOverlappingInputs level _ _ → g ∈ v.files level)
    refine hkeep' f (mem_getOverlappingInputs_of_meets (hsub f hf) ?_)
    obtain ⟨hlo, hhi⟩ := getRange_covers (mem_append_left
      (v.otherInputs level (addBoundaryInputs (v.files level) picked)) (hkeep f hf))
    exact FileMetaData.meets_of_covered (hlevel.ranged f (hsub f hf)) hlo hhi
  · exact hkeep f hf

theorem setupOtherInputs_convex (maxFileSize : Nat) (hlevel : LevelShape level (v.files level))
    (hpos : 0 < level) (hsub : ∀ f ∈ picked, f ∈ v.files level)
    (hconv : Convex (v.files level) picked) :
    Convex (v.files level) (v.setupOtherInputs maxFileSize level picked).inputs0 := by
  have hboundary : ∀ inputs : List (FileMetaData K), (∀ f ∈ inputs, f ∈ v.files level) →
      Convex (v.files level) inputs →
      Convex (v.files level) (addBoundaryInputs (v.files level) inputs) := by
    intro inputs hinputs
    obtain ⟨-, -, -, -, h⟩ := addBoundaryInputs_spec hlevel.ranged hinputs
    exact h (hlevel.sorted hpos)
  unfold Version.setupOtherInputs
  dsimp only
  split_ifs
  · refine hboundary _ (fun g hg => mem_of_getOverlappingInputs hg) ?_
    unfold Version.getOverlappingInputs
    rw [if_neg hpos.ne']
    exact convex_filter_meets (hlevel.sorted hpos) hlevel.ranged _ _
  · exact hboundary picked hsub hconv

variable {maxFileSize : Nat} {b e : Option (InternalKey K)} {c : Compaction K}

theorem compactRange_eq_none (h : v.compactRange maxFileSize level b e = none) :
    v.getOverlappingInputs level b e = [] := by
  unfold Version.compactRange at h
  dsimp only at h
  split_ifs at h with hnil
  exact hnil

theorem compactRange_eq_some (h : v.compactRange maxFileSize level b e = some c) :
    ∃ picked rest, v.getOverlappingInputs level b e = picked ++ rest ∧ picked ≠ [] ∧
      (level = 0 → rest = []) ∧ c = v.setupOtherInputs maxFileSize level picked := by
  unfold Version.compactRange at h
  dsimp only at h
  split_ifs at h with hnil hpos
  · obtain ⟨rest, hrest⟩ := truncateInputs_append maxFileSize (v.getOverlappingInputs level b e) 0
    exact ⟨_, rest, hrest, truncateInputs_ne_nil hnil, fun h0 => absurd h0 hpos.ne',
      (Option.some.inj h).symm⟩
  · exact ⟨_, [], (append_nil _).symm, hnil, fun _ => rfl, (Option.some.inj h).symm⟩

theorem compactRange_inputs0 (h : v.compactRange maxFileSize level b e = some c) :
    c.level = level ∧ c.inputs0 ≠ [] ∧ ∀ f ∈ c.inputs0, f ∈ v.files level := by
  obtain ⟨picked, rest, hinputs, hne, -, rfl⟩ := compactRange_eq_some h
  refine ⟨rfl, setupOtherInputs_ne_nil hne maxFileSize level, fun f hf => ?_⟩
  refine mem_of_setupOtherInputs (fun g hg => ?_) hf
  apply mem_of_getOverlappingInputs (b := b) (e := e)
  rw [hinputs]
  exact mem_append_left rest hg

theorem compactRange_rest_after (hlevel : LevelShape level (v.files level))
    (h : v.compactRange maxFileSize level b e = some c) {g : FileMetaData K}
    (hg : g ∈ v.files level) (hgn : g ∉ c.inputs0)
    (hmeets : g.meets (b.map InternalKey.userKey) (e.map InternalKey.userKey) = true) :
    ∀ f ∈ c.inputs0, f.largest < g.smallest := by
  obtain ⟨picked, rest, hinputs, hne, hzero, rfl⟩ := compactRange_eq_some h
  have hsub : ∀ f ∈ picked, f ∈ v.files level := by
    intro f hf
    apply mem_of_getOverlappingInputs (b := b) (e := e)
    rw [hinputs]
    exact mem_append_left rest hf
  have hkeep := subset_setupOtherInputs maxFileSize hlevel hsub
  have hgm := mem_getOverlappingInputs_of_meets hg hmeets
  rw [hinputs] at hgm
  have hgrest : g ∈ rest := (mem_append.mp hgm).resolve_left fun hp => hgn (hkeep g hp)
  have hpos : 0 < level := by
    rw [Nat.pos_iff_ne_zero]
    intro h0
    rw [hzero h0] at hgrest
    exact absurd hgrest not_mem_nil
  have hfilter : v.getOverlappingInputs level b e = (v.files level).filter
      (FileMetaData.meets (b.map InternalKey.userKey) (e.map InternalKey.userKey)) :=
    if_neg hpos.ne'
  have hsorted : SortedDisjoint (picked ++ rest) := by
    rw [← hinputs, hfilter]
    exact List.Pairwise.filter _ (hlevel.sorted hpos)
  have hbefore := (pairwise_append.mp hsorted).2.2
  have hconv : Convex (v.files level) picked := by
    refine Convex.of_append hsorted ?_
    rw [← hinputs, hfilter]
    exact convex_filter_meets (hlevel.sorted hpos) hlevel.ranged _ _
  obtain hall | hall := setupOtherInputs_convex maxFileSize hlevel hpos hsub hconv g hg hgn
  · obtain ⟨f, hf⟩ := exists_mem_of_ne_nil picked hne
    have hcycle := (hall f (hkeep f hf)).trans_le ((hlevel.ranged f (hsub f hf)).trans
      ((hbefore f hf g hgrest).le.trans (hlevel.ranged g hg)))
    exact absurd hcycle (lt_irrefl _)
  · exact hall

omit [Inhabited K] in
theorem compactionEdit_files_level (v : Version K) (c : Compaction K)
    (output : Option (FileMetaData K)) (hlevel : c.level < kNumLevels) :
    (v.applyEdit (compactionEdit c output)).files c.level = (v.files c.level).filter fun f =>
      decide (f.number ∉ (compactionEdit c output).deletedAt c.level) := by
  have hnew : (compactionEdit c output).newFilesAt c.level = [] := by
    rw [eq_nil_iff_forall_not_mem]
    intro f hf
    exact absurd (mem_compactionEdit_newFilesAt.mp hf).1 (Nat.succ_ne_self c.level).symm
  unfold Version.applyEdit Builder.saveTo Builder.apply
  dsimp only
  rw [if_pos hlevel, hnew]
  rfl

theorem compactRange_committed (hlt : level < kNumLevels)
    (h : v.compactRange maxFileSize level b e = some c) (output : Option (FileMetaData K)) :
    let files := (v.applyEdit (compactionEdit c output)).files level
    files.Sublist (v.files level) ∧ files.length < (v.files level).length ∧
      ∀ f ∈ files, f ∉ c.inputs0 := by
  obtain ⟨rfl, hnil, hsub⟩ := compactRange_inputs0 h
  dsimp only
  rw [compactionEdit_files_level v c output hlt]
  have hout : ∀ f ∈ (v.files c.level).filter fun f =>
      decide (f.number ∉ (compactionEdit c output).deletedAt c.level), f ∉ c.inputs0 := by
    intro f hf hinput
    refine of_decide_eq_true (mem_filter.mp hf).2 ?_
    rw [VersionEdit.mem_deletedAt, mem_compactionEdit_deletedFiles]
    exact Or.inl ⟨f, hinput, rfl⟩
  refine ⟨filter_sublist, lt_of_le_of_ne (length_filter_le _ _) fun heq => ?_, hout⟩
  have hfirst := hsub _ (head_mem hnil)
  rw [← filter_sublist.eq_of_length heq] at hfirst
  exact hout _ hfirst (head_mem hnil)

end Round

/-! ## All rounds -/

section Loop

variable (maxFileSize : Nat) {level : Nat} (e : Option (InternalKey K))
  (output : Version K → Compaction K → Option (FileMetaData K))

theorem compactRangeLoop_spec (hlt : level < kNumLevels) {fuel : Nat} {v : Version K}
    (b : Option (InternalKey K)) (hlevel : LevelShape level (v.files level))
    (hfuel : (v.files level).length < fuel) :
    ∃ v', compactRangeLoop maxFileSize level e output fuel v b = some v' ∧
      (v'.files level).Sublist (v.files level) ∧ ∀ f ∈ v'.files level,
        f.meets (b.map InternalKey.userKey) (e.map InternalKey.userKey) = false := by
  induction fuel generalizing v b with
  | zero => omega
  | succ fuel ih =>
    unfold compactRangeLoop
    cases hc : v.compactRange maxFileSize level b e with
    | none =>
      refine ⟨v, rfl, List.Sublist.refl _, ?_⟩
      intro f hf
      rw [Bool.eq_false_iff]
      intro hmeets
      have hmem := mem_getOverlappingInputs_of_meets hf hmeets
      rw [compactRange_eq_none hc] at hmem
      exact absurd hmem not_mem_nil
    | some c =>
      dsimp only
      obtain ⟨-, hnil, -⟩ := compactRange_inputs0 hc
      obtain ⟨hsublist, hshorter, hout⟩ := compactRange_committed hlt hc (output v c)
      obtain ⟨v', hloop, hrest, hclear⟩ := ih (c.inputs0.getLast?.map FileMetaData.largest)
        (hlevel.sublist hsublist) (by omega)
      refine ⟨v', hloop, hrest.trans hsublist, ?_⟩
      intro g hg
      rw [Bool.eq_false_iff]
      intro hmeets
      -- what is left of the range lies after the last input, so it meets the next range
      have hg' := hrest.subset hg
      have hafter := compactRange_rest_after hlevel hc (hsublist.subset hg')
        (hout g hg') hmeets
      refine absurd (hclear g hg) ?_
      rw [Bool.not_eq_false, FileMetaData.meets_iff]
      refine ⟨?_, (FileMetaData.meets_iff.mp hmeets).2⟩
      intro x hx
      rw [getLast?_eq_some_getLast hnil] at hx
      rw [← Option.some.inj hx]
      exact InternalKey.userKey_mono ((hafter _ (getLast_mem hnil)).le.trans
        (hlevel.ranged g (hsublist.subset hg')))

end Loop

/-- **A manual compaction covers its range.** Whatever the outputs are, the rounds come to an end
    after at most as many commits as the level has files, and then no file of the level meets the
    range. -/
theorem compactRangeLoop_covers {v : Version K} (hv : v.Shape) (maxFileSize : Nat) {level : Nat}
    (hlevel : level + 1 < kNumLevels) (rangeBegin rangeEnd : Option (InternalKey K))
    (output : Version K → Compaction K → Option (FileMetaData K)) :
    ∃ v', compactRangeLoop maxFileSize level rangeEnd output ((v.files level).length + 1) v
        rangeBegin = some v' ∧
      ∀ f ∈ v'.files level, f.meets (rangeBegin.map InternalKey.userKey)
        (rangeEnd.map InternalKey.userKey) = false := by
  have hshape : LevelShape level (v.files level) := ⟨hv.levelsSorted level, hv.ranged level⟩
  obtain ⟨v', hloop, -, hclear⟩ := compactRangeLoop_spec maxFileSize rangeEnd output
    (by omega) rangeBegin hshape (Nat.lt_succ_self _)
  exact ⟨v', hloop, hclear⟩

theorem stacked_shape : stacked.Shape where
  canonical
    | 0 => by unfold BySmallest; decide
    | 1 => by unfold BySmallest; decide
    | _ + 2 => List.Pairwise.nil
  ranged
    | 0 => by decide
    | 1 => by decide
    | _ + 2 => fun _ hf => absurd hf not_mem_nil
  apart
    | 0, h => absurd h (by decide)
    | 1, _ => by decide
    | _ + 2, _ => fun _ hf => absurd hf not_mem_nil
  numbers
    | 0, 0 => by decide
    | 0, 1 => by decide
    | 1, 0 => by decide
    | 1, 1 => by decide
    | 0, _ + 2 => fun _ _ _ hg => absurd hg not_mem_nil
    | 1, _ + 2 => fun _ _ _ hg => absurd hg not_mem_nil
    | _ + 2, _ => fun _ hf => absurd hf not_mem_nil

theorem compactRangeLoop_covers_stacked :
    (stacked.compactRange 10 1 (some ⟨8, 0⟩) none).map (·.inputs0.length) = some 1 ∧
    ∃ v', compactRangeLoop 10 1 none (fun _ _ => none) 3 stacked (some ⟨8, 0⟩) = some v' ∧
      ∀ f ∈ v'.files 1, f.meets (some 8) none = false :=
  ⟨by decide +kernel,
    compactRangeLoop_covers stacked_shape 10 (by decide) (some ⟨8, 0⟩) none fun _ _ => none⟩

end LevelDB
