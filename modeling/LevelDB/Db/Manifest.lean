/-
  Manifest replay refines the version in memory.

  A run is any number of sessions over one directory. In memory every edit goes through a builder
  of its own on top of the current version; `Recover` puts all records of the manifest through one
  builder.
-/
import LevelDB.Db.Sound
import LevelDB.Lib.Trace

namespace LevelDB

open List Option Function Transition

variable {K V : Type} [LinearOrder K]

/-! ## Runs -/

namespace VersionEdit

def addedNumbers (edit : VersionEdit K) : List (Nat × Nat) :=
  edit.newFiles.map fun p => (p.1, p.2.number)

structure Below (edit : VersionEdit K) (next : Nat) : Prop where
  files : ∀ p ∈ edit.newFiles, p.2.number < next
  logNumber : ∀ n, edit.logNumber = some n → n < next
  prevLogNumber : ∀ n, edit.prevLogNumber = some n → n < next

end VersionEdit

/-- What the calls of a run have added, in order. The events are the edits of its calls;
    other steps have none. -/
def addedNumbers (events : List (Option (VersionEdit K))) : List (Nat × Nat) :=
  (events.filterMap id).flatMap VersionEdit.addedNumbers

/-- The steps. If `bounded`, edits only have numbers that the version set has given out. -/
inductive ManifestStep [Inhabited K] (cfg : Config K V) (bounded : Prop) :
    Disk K V × VersionSet K → Option (VersionEdit K) → Disk K V × VersionSet K → Prop where
  | logAndApply {d : Disk K V} {vs : VersionSet K} (edit : VersionEdit K)
      (hbelow : bounded → edit.Below vs.nextFileNumber) :
      ManifestStep cfg bounded (d, vs) (some edit)
        ((vs.logAndApply cfg d edit).disk, (vs.logAndApply cfg d edit).versions)
  | setNumbers {d : Disk K V} {vs : VersionSet K} (lastSequence : Nat) {nextFileNumber : Nat}
      (hle : vs.nextFileNumber ≤ nextFileNumber) :
      ManifestStep cfg bounded (d, vs) none
        (d, { vs with lastSequence := lastSequence, nextFileNumber := nextFileNumber })
  /-- Logs and tables are written and removed. -/
  | files {d : Disk K V} {vs : VersionSet K} (logs : LogDir K V)
      (tables : Nat → Option (Table K V)) :
      ManifestStep cfg bounded (d, vs) none ({ d with logs := logs, tables := tables }, vs)
  /-- The next session. -/
  | reopen {d : Disk K V} {vs vs' : VersionSet K} (h : VersionSet.init.recover cfg d = .ok vs') :
      ManifestStep cfg bounded (d, vs) none (d, vs')
  /-- `DBImpl::Recover` on a new database: the version set that has written the first manifest
      reads it. -/
  | reload {d : Disk K V} {vs vs' : VersionSet K} (hcur : vs.current = .empty)
      (hptr : vs.compactPointer = fun _ => none) (h : vs.recover cfg d = .ok vs') :
      ManifestStep cfg bounded (d, vs) none (d, vs')

abbrev ManifestRun [Inhabited K] (cfg : Config K V) (bounded : Prop) :
    List (Option (VersionEdit K)) → Disk K V × VersionSet K → Prop :=
  Trace (.empty, .init) (ManifestStep cfg bounded)

/-! ## Compact pointers -/

section Pointers

variable [Inhabited K] {edit : VersionEdit K}

theorem applyCompactPointers_at (edit : VersionEdit K) (level : Nat) :
    (∀ pointers, applyCompactPointers pointers edit level = pointers level) ∨
      ∃ p, ∀ pointers, applyCompactPointers pointers edit level = p := by
  unfold applyCompactPointers
  generalize edit.compactPointers = l
  induction l with
  | nil => exact Or.inl fun _ => rfl
  | cons p l ih =>
    obtain ih | ⟨q, ih⟩ := ih
    · by_cases hl : level = p.1
      · simp_all
      · left
        intro pointers
        rw [foldl_cons, ih, update_of_ne hl]
    · exact Or.inr ⟨q, fun pointers => ih _⟩

theorem applyCompactPointers_idem (pointers : Nat → Option (InternalKey K)) :
    applyCompactPointers (applyCompactPointers pointers edit) edit =
      applyCompactPointers pointers edit := by
  funext level
  obtain h | ⟨p, h⟩ := applyCompactPointers_at edit level
  · rw [h]
  · rw [h, h]

/-- The pointers that `Recover` accepts: of levels that exist, and none of them empty. -/
def GoodPointers (pointers : Nat → Option (InternalKey K)) : Prop :=
  ∀ level k, pointers level = some k → level < kNumLevels ∧ k ≠ .cleared

theorem GoodPointers.apply {cfg : Config K V} {pointers : Nat → Option (InternalKey K)}
    (h : GoodPointers pointers) (hacc : edit.Accepted cfg) :
    GoodPointers (applyCompactPointers pointers edit) := by
  have hedit := (VersionEdit.decodeError_eq_none_iff.mp hacc.decodes).1
  unfold applyCompactPointers
  revert hedit
  generalize edit.compactPointers = l
  induction l generalizing pointers with
  | nil => exact fun _ => h
  | cons p l ih =>
    intro hedit
    obtain ⟨hp, hl⟩ := forall_mem_cons.mp hedit
    refine ih ?_ hl
    intro level k hk
    dsimp only at hk
    rw [if_neg hp.2, update_apply] at hk
    split_ifs at hk with hlevel
    · obtain rfl := Option.some.inj hk
      exact ⟨hlevel ▸ hp.1, hp.2⟩
    · exact h level k hk

theorem applyCompactPointers_range {pointers : Nat → Option (InternalKey K)}
    (h : GoodPointers pointers) (n level : Nat) :
    applyCompactPointers (fun _ => none)
        { compactPointers := (List.range n).filterMap fun l => (pointers l).map fun k => (l, k) }
        level = if level < n then pointers level else none := by
  unfold applyCompactPointers
  induction n with
  | zero => rfl
  | succ n ih =>
    dsimp only at ih ⊢
    rw [range_succ, filterMap_append, foldl_append]
    have hlast : ([n].filterMap fun l => (pointers l).map fun k => (l, k)) =
        ((pointers n).map fun k => (n, k)).toList := by
      cases hn : pointers n <;> simp [hn]
    rw [hlast]
    obtain hlevel | rfl | hlevel := lt_trichotomy level n
    · rw [if_pos hlevel] at ih
      rw [if_pos (by omega)]
      refine Eq.trans ?_ ih
      cases pointers n with
      | none => rfl
      | some k => exact update_of_ne hlevel.ne _ _
    · rw [if_neg (lt_irrefl _)] at ih
      rw [if_pos level.lt_succ_self]
      cases hn : pointers level with
      | none => exact ih
      | some k =>
        rw [map_some, toList_some, foldl_cons, foldl_nil,
          update_self, if_neg (h level k hn).2]
    · rw [if_neg hlevel.not_gt] at ih
      rw [if_neg (by omega)]
      refine Eq.trans ?_ ih
      cases pointers n with
      | none => rfl
      | some k => exact update_of_ne hlevel.ne' _ _

theorem applyCompactPointers_snapshot {cfg : Config K V} {vs : VersionSet K}
    (h : GoodPointers vs.compactPointer) :
    applyCompactPointers (fun _ => none) (vs.snapshotEdit cfg) = vs.compactPointer := by
  funext level
  refine (applyCompactPointers_range h kNumLevels level).trans ?_
  split_ifs with hlevel
  · rfl
  · cases hp : vs.compactPointer level with
    | none => rfl
    | some k => exact absurd (h level k hp).1 hlevel

end Pointers

/-! ## What a manifest has saved -/

section Saved

variable [Inhabited K] {cfg : Config K V} {bounded : Prop} {st : Replay K} {vs : VersionSet K}
  {d : Disk K V} {edit : VersionEdit K} {seen : List (Nat × Nat)}

inductive VersionSet.Mentions (vs : VersionSet K) : Nat → Prop where
  | file {level : Nat} {f : FileMetaData K} (hf : f ∈ vs.current.files level) :
      vs.Mentions f.number
  | logNumber : vs.Mentions vs.logNumber
  | prevLogNumber : vs.Mentions vs.prevLogNumber
  | manifest : vs.Mentions vs.manifestFileNumber
  | descriptorLog {n : Nat} (h : vs.descriptorLog = some n) : vs.Mentions n

/-- The files of the version set, with numbers in `seen`, can be written in a snapshot. -/
structure Writable (seen : List (Nat × Nat)) (vs : VersionSet K) : Prop where
  canonical : vs.current.Canonical
  seen : ∀ level, ∀ f ∈ vs.current.files level, (level, f.number) ∈ seen
  numbers : ∀ level, ∀ f ∈ vs.current.files level, ∀ g ∈ vs.current.files level,
    f.number = g.number → f = g
  keys : ∀ level, ∀ f ∈ vs.current.files level, f.smallest ≠ .cleared ∧ f.largest ≠ .cleared
  pointers : GoodPointers vs.compactPointer

/-- The variables of `Recover` stand for the version set, up to the last sequence and the next
    file number. -/
structure Saved (bounded : Prop) (seen : List (Nat × Nat)) (st : Replay K) (vs : VersionSet K) :
    Prop where
  tracks : Tracks st.builder vs.current
  seen : ∀ level, ∀ f ∈ (st.builder level).addedFiles, (level, f.number) ∈ seen
  pointers : st.compactPointer = vs.compactPointer
  logNumber : st.logNumber = some vs.logNumber
  prevLogNumber : st.prevLogNumber = some vs.prevLogNumber
  lastSequence : ∃ s, st.lastSequence = some s
  nextFile : ∃ n, st.nextFile = some n ∧ n ≤ vs.nextFileNumber ∧
    (bounded → ∀ m, vs.Mentions m → m ≤ n)

omit [LinearOrder K] [Inhabited K] in
theorem freshAt_of_nodup (hnodup : (seen ++ edit.addedNumbers).Nodup)
    {files : Nat → List (FileMetaData K)}
    (hseen : ∀ level, ∀ f ∈ files level, (level, f.number) ∈ seen) (level : Nat) :
    FreshAt (files level) (edit.newFilesAt level) := by
  obtain ⟨-, hedit, hdisj⟩ := nodup_append.mp hnodup
  have hmem : ∀ f ∈ edit.newFilesAt level, (level, f.number) ∈ edit.addedNumbers := fun f hf =>
    List.mem_map.mpr ⟨_, VersionEdit.mem_newFilesAt.mp hf, rfl⟩
  refine ⟨?_, ?_⟩
  · refine List.Nodup.of_map (fun n => (level, n)) ?_
    have hsub : ((edit.newFilesAt level).map FileMetaData.number).map (fun n => (level, n)) =
        (edit.newFiles.filter fun p => p.1 == level).map fun p => (p.1, p.2.number) := by
      unfold VersionEdit.newFilesAt
      rw [List.map_map, List.map_map]
      refine map_congr_left ?_
      intro p hp
      have hp1 : p.1 = level := by simpa using (mem_filter.mp hp).2
      simp [hp1]
    rw [hsub]
    exact hedit.sublist (filter_sublist.map _)
  · intro f hf g hg heq
    exact hdisj _ (hseen level g hg) _ (hmem f hf) (by rw [heq])

theorem logAndApply_versions (cfg : Config K V) (vs : VersionSet K) (d : Disk K V)
    (edit : VersionEdit K) :
    (vs.logAndApply cfg d edit).versions = { vs with
      current := vs.current.applyEdit edit
      compactPointer := applyCompactPointers vs.compactPointer edit
      logNumber := edit.logNumber.getD vs.logNumber
      prevLogNumber := edit.prevLogNumber.getD vs.prevLogNumber
      descriptorLog := some (vs.descriptorLog.getD vs.manifestFileNumber) } := by
  unfold VersionSet.logAndApply
  cases vs.descriptorLog with
  | none => rfl
  | some n => rfl

theorem mentions_logAndApply (hw : Writable seen vs) (hnodup : (seen ++ edit.addedNumbers).Nodup)
    (hbelow : edit.Below vs.nextFileNumber) (hold : ∀ m, vs.Mentions m → m < vs.nextFileNumber)
    {m : Nat} (hm : (vs.logAndApply cfg d edit).versions.Mentions m) : m < vs.nextFileNumber := by
  rw [logAndApply_versions] at hm
  cases hm with
  | file hf =>
    obtain hf | ⟨hf, -⟩ := (Version.mem_applyEdit (freshAt_of_nodup hnodup hw.seen _)
      (Version.level_lt hf)).mp hf
    · exact hbelow.files _ (VersionEdit.mem_newFilesAt.mp hf)
    · exact hold _ (.file hf)
  | logNumber =>
    cases hn : edit.logNumber with
    | none => simpa [hn] using hold _ .logNumber
    | some n => simpa [hn] using hbelow.logNumber n hn
  | prevLogNumber =>
    cases hn : edit.prevLogNumber with
    | none => simpa [hn] using hold _ .prevLogNumber
    | some n => simpa [hn] using hbelow.prevLogNumber n hn
  | manifest => exact hold _ .manifest
  | descriptorLog h =>
    obtain rfl := Option.some.inj h
    cases hn : vs.descriptorLog with
    | none => simpa [hn] using hold _ .manifest
    | some n => simpa [hn] using hold _ (.descriptorLog hn)

theorem Saved.apply (htracks : Tracks st.builder vs.current) (hw : Writable seen vs)
    (hseen : ∀ level, ∀ f ∈ (st.builder level).addedFiles, (level, f.number) ∈ seen)
    (hptr : applyCompactPointers st.compactPointer edit =
      applyCompactPointers vs.compactPointer edit)
    (hnodup : (seen ++ edit.addedNumbers).Nodup)
    (hbelow : bounded → edit.Below vs.nextFileNumber)
    (hold : bounded → ∀ m, vs.Mentions m → m < vs.nextFileNumber) :
    Saved bounded (seen ++ edit.addedNumbers) (st.apply (vs.completeEdit edit))
      (vs.logAndApply cfg d edit).versions := by
  have hmentions : bounded → ∀ m, (vs.logAndApply cfg d edit).versions.Mentions m →
      m ≤ vs.nextFileNumber := fun hb m hm =>
    (mentions_logAndApply hw hnodup (hbelow hb) (hold hb) hm).le
  rw [logAndApply_versions] at hmentions ⊢
  refine ⟨htracks.apply (freshAt_of_nodup hnodup hseen), ?_, hptr, rfl, rfl, ⟨_, rfl⟩,
    _, rfl, le_refl _, hmentions⟩
  intro level f hf
  rw [mem_append]
  obtain hf | hf := (LevelState.mem_apply_added (freshAt_of_nodup hnodup hseen level) f).mp hf
  · exact Or.inl (hseen level f hf)
  · exact Or.inr (List.mem_map.mpr ⟨_, VersionEdit.mem_newFilesAt.mp hf, rfl⟩)

theorem Writable.logAndApply (hw : Writable seen vs) (hacc : edit.Accepted cfg)
    (hnodup : (seen ++ edit.addedNumbers).Nodup) :
    Writable (seen ++ edit.addedNumbers) (vs.logAndApply cfg d edit).versions := by
  have hfresh := freshAt_of_nodup hnodup hw.seen
  have hmem : ∀ {level f}, f ∈ (vs.current.applyEdit edit).files level →
      f ∈ edit.newFilesAt level ∨ f ∈ vs.current.files level := fun hf =>
    ((Version.mem_applyEdit (hfresh _) (Version.level_lt hf)).mp hf).imp_right And.left
  rw [logAndApply_versions]
  refine ⟨Version.applyEdit_canonical hw.canonical hfresh, ?_, ?_, ?_, hw.pointers.apply hacc⟩
  · intro level f hf
    rw [mem_append]
    obtain hf | hf := hmem hf
    · exact Or.inr (List.mem_map.mpr ⟨_, VersionEdit.mem_newFilesAt.mp hf, rfl⟩)
    · exact Or.inl (hw.seen level f hf)
  · intro level f hf g hg heq
    obtain hf | hf := hmem hf
    · obtain hg | hg := hmem hg
      · exact inj_on_of_nodup_map (hfresh level).1 hf hg heq
      · exact absurd heq.symm ((hfresh level).2 f hf g hg)
    · obtain hg | hg := hmem hg
      · exact absurd heq ((hfresh level).2 g hg f hf)
      · exact hw.numbers level f hf g hg heq
  · intro level f hf
    obtain hf | hf := hmem hf
    · exact ((VersionEdit.decodeError_eq_none_iff.mp hacc.decodes).2.2 _
        (VersionEdit.mem_newFilesAt.mp hf)).2
    · exact hw.keys level f hf

theorem Saved.recover {w : VersionSet K} {m n s : Nat} {f : LogFile (VersionEdit K)}
    (h : Saved bounded seen st vs) (hv : vs.current.Canonical) (hcur : w.current = .empty)
    (hptr : w.compactPointer = fun _ => none) (hm : d.current = some m)
    (hf : d.manifests m = some f) (hst : replay cfg f.records .start = .ok st)
    (hn : st.nextFile = some n) (hs : st.lastSequence = some s) :
    w.recover cfg d = .ok { w with
      current := vs.current
      compactPointer := vs.compactPointer
      manifestFileNumber := n
      nextFileNumber := n + 1
      lastSequence := s
      logNumber := vs.logNumber
      prevLogNumber := vs.prevLogNumber } := by
  have hrec : d.manifestRecords = some (m, f.records) := by
    unfold Disk.manifestRecords
    rw [hm, bind_some, hf]
    rfl
  have hsave : st.builder.saveTo w.current = vs.current :=
    h.tracks.saveTo_eq hv fun level => by rw [hcur]; rfl
  have hst' : replay cfg f.records ⟨.empty, w.compactPointer, none, none, none, none⟩ = .ok st := by
    rw [hptr]
    exact hst
  unfold VersionSet.recover
  rw [hrec]
  dsimp only
  rw [hst']
  dsimp only
  rw [hn, hs, h.logNumber]
  dsimp only
  rw [hsave, h.pointers, h.prevLogNumber]
  rfl

end Saved

/-! ## All runs -/

section Run

variable [Inhabited K] {cfg : Config K V} {bounded : Prop} {seen : List (Nat × Nat)}
  {d : Disk K V} {vs : VersionSet K} {edit : VersionEdit K}

/-- What every run keeps: the manifest that CURRENT names, if any, stands for the version
    set. -/
structure ManifestInv (cfg : Config K V) (bounded : Prop) (seen : List (Nat × Nat))
    (d : Disk K V) (vs : VersionSet K) : Prop where
  writable : Writable seen vs
  below : bounded → ∀ m, vs.Mentions m → m < vs.nextFileNumber
  saved : (d.manifestRecords = none ∧ vs.descriptorLog = none) ∨
    ∃ m f st, d.current = some m ∧ d.manifests m = some f ∧
      (∀ n, vs.descriptorLog = some n → n = m) ∧
      replay cfg f.records .start = .ok st ∧ Saved bounded seen st vs

structure ManifestSaved (cfg : Config K V) (bounded : Prop) (seen : List (Nat × Nat))
    (d : Disk K V) (vs : VersionSet K) : Prop where
  writable : Writable seen vs
  below : bounded → ∀ m, vs.Mentions m → m < vs.nextFileNumber
  saved : ∃ m f st, d.current = some m ∧ d.manifests m = some f ∧ vs.descriptorLog = some m ∧
      replay cfg f.records .start = .ok st ∧ Saved bounded seen st vs ∧
      st.nextFile = some vs.nextFileNumber ∧ st.lastSequence = some vs.lastSequence

theorem manifestInv_init : ManifestInv cfg bounded [] (Disk.empty : Disk K V) .init where
  writable := ⟨fun _ => List.Pairwise.nil, fun _ _ hf => absurd hf not_mem_nil,
    fun _ _ hf => absurd hf not_mem_nil, fun _ _ hf => absurd hf not_mem_nil,
    fun _ _ h => by cases h⟩
  below := by
    intro _ m hm
    cases hm with
    | file hf => exact absurd hf not_mem_nil
    | logNumber => exact Nat.two_pos
    | prevLogNumber => exact Nat.two_pos
    | manifest => exact Nat.two_pos
    | descriptorLog h => cases h
  saved := Or.inl ⟨rfl, rfl⟩

theorem ManifestSaved.inv (h : ManifestSaved cfg bounded seen d vs) :
    ManifestInv cfg bounded seen d vs := by
  obtain ⟨m, f, st, hm, hf, hlog, hst, hsaved, -, -⟩ := h.saved
  refine ⟨h.writable, h.below, Or.inr ⟨m, f, st, hm, hf, ?_, hst, hsaved⟩⟩
  intro n hn
  exact Option.some.inj (hn.symm.trans hlog)

/-- What `LogAndApply` leaves on disk: records that lead to the version before the call, and
    the edit. -/
structure Logged (cfg : Config K V) (seen : List (Nat × Nat)) (vs : VersionSet K) (d : Disk K V)
    (edit : VersionEdit K) (m : Nat) (st : Replay K) : Prop where
  current : (vs.logAndApply cfg d edit).disk.current = some m
  records : ∃ f, (vs.logAndApply cfg d edit).disk.manifests m = some f ∧
    replay cfg f.records .start = .ok (st.apply (vs.completeEdit edit))
  tracks : Tracks st.builder vs.current
  seen : ∀ level, ∀ f ∈ (st.builder level).addedFiles, (level, f.number) ∈ seen
  pointers : applyCompactPointers st.compactPointer edit =
    applyCompactPointers vs.compactPointer edit

theorem ManifestInv.logged_append {n : Nat} (h : ManifestInv cfg bounded seen d vs)
    (hacc : edit.Accepted cfg) (hlog : vs.descriptorLog = some n) :
    ∃ st, Logged cfg seen vs d edit n st := by
  obtain ⟨-, hnone⟩ | ⟨m, f, st, hm, hf, hn, hst, hsaved⟩ := h.saved
  · rw [hlog] at hnone
    cases hnone
  · obtain rfl := hn n hlog
    have hdisk : (vs.logAndApply cfg d edit).disk =
        d.setManifest n (f.append (vs.completeEdit edit)).sync := by
      unfold VersionSet.logAndApply
      rw [hlog]
      dsimp only
      rw [hf]
      rfl
    have hacc' : (vs.completeEdit edit).Accepted cfg := ⟨hacc.decodes, hacc.comparator⟩
    refine ⟨st, ?_, ⟨(f.append (vs.completeEdit edit)).sync, ?_, ?_⟩, hsaved.tracks, hsaved.seen, ?_⟩
    · rw [hdisk]
      exact hm
    · rw [hdisk]
      exact Disk.manifests_setManifest _ _ _
    · rw [LogFile.sync_records, LogFile.append_records, replay_append hst,
        replay_cons_of_accepted hacc']
      rfl
    · rw [hsaved.pointers]

theorem Writable.logged_create (h : Writable seen vs) (hacc : edit.Accepted cfg)
    (hlog : vs.descriptorLog = none) :
    ∃ st, Logged cfg seen vs d edit vs.manifestFileNumber st := by
  obtain ⟨vs₁, hvs₁⟩ : ∃ vs₁, vs₁ = { vs with
    compactPointer := applyCompactPointers vs.compactPointer edit } := ⟨_, rfl⟩
  have hcur : vs₁.current = vs.current := by rw [hvs₁]
  have hptr : vs₁.compactPointer = applyCompactPointers vs.compactPointer edit := by rw [hvs₁]
  have hgood : GoodPointers vs₁.compactPointer := hptr ▸ h.pointers.apply hacc
  have hdisk : (vs.logAndApply cfg d edit).disk = (d.setManifest vs.manifestFileNumber
      ((LogFile.empty.append (vs₁.snapshotEdit cfg)).append (vs.completeEdit edit)).sync).setCurrent
        vs.manifestFileNumber := by
    rw [hvs₁]
    unfold VersionSet.logAndApply
    rw [hlog]
    rfl
  have hsnap : (vs₁.snapshotEdit cfg).Accepted cfg :=
    snapshotEdit_accepted (hcur ▸ h.keys) fun level k hk => (hgood level k hk).2
  have hacc' : (vs.completeEdit edit).Accepted cfg := ⟨hacc.decodes, hacc.comparator⟩
  have hfresh : ∀ level, FreshAt (Builder.empty (K := K) level).addedFiles
      ((vs₁.snapshotEdit cfg).newFilesAt level) :=
    snapshotEdit_freshAt (hcur ▸ h.canonical) (hcur ▸ h.numbers)
  refine ⟨Replay.start.apply (vs₁.snapshotEdit cfg), ?_,
    ⟨((LogFile.empty.append (vs₁.snapshotEdit cfg)).append (vs.completeEdit edit)).sync, ?_, ?_⟩,
    hcur ▸ tracks_snapshot hfresh, ?_, ?_⟩
  · rw [hdisk]
    rfl
  · rw [hdisk, Disk.manifests_setCurrent, Disk.manifests_setManifest]
  · rw [LogFile.sync_records, LogFile.append_records, LogFile.append_records]
    exact (replay_cons_of_accepted hsnap _ _).trans (replay_cons_of_accepted hacc' _ _)
  · intro level f hf
    have hf' := (mem_addedFiles_snapshot hfresh level f).mp hf
    exact h.seen level f (hcur ▸ hf')
  · have hst : (Replay.start.apply (vs₁.snapshotEdit cfg)).compactPointer = vs₁.compactPointer :=
      applyCompactPointers_snapshot hgood
    rw [hst, hptr, applyCompactPointers_idem]

theorem ManifestInv.logAndApply (h : ManifestInv cfg bounded seen d vs) (hacc : edit.Accepted cfg)
    (hnodup : (seen ++ edit.addedNumbers).Nodup)
    (hbelow : bounded → edit.Below vs.nextFileNumber) :
    ManifestSaved cfg bounded (seen ++ edit.addedNumbers) (vs.logAndApply cfg d edit).disk
      (vs.logAndApply cfg d edit).versions := by
  obtain ⟨st, hst⟩ : ∃ st, Logged cfg seen vs d edit
      (vs.descriptorLog.getD vs.manifestFileNumber) st := by
    cases hlog : vs.descriptorLog with
    | some n => exact h.logged_append hacc hlog
    | none => exact h.writable.logged_create hacc hlog
  obtain ⟨f, hf, hrec⟩ := hst.records
  refine ⟨h.writable.logAndApply hacc hnodup, ?_, _, f, _, hst.current, hf, ?_, hrec,
    .apply hst.tracks h.writable hst.seen hst.pointers hnodup hbelow h.below, ?_, ?_⟩
  · intro hb m hm
    have hlt := mentions_logAndApply h.writable hnodup (hbelow hb) (h.below hb) hm
    rw [logAndApply_versions]
    exact hlt
  · rw [logAndApply_versions]
  · rw [logAndApply_versions]
    rfl
  · rw [logAndApply_versions]
    rfl

theorem ManifestInv.recover {w vs' : VersionSet K} (h : ManifestInv cfg bounded seen d vs)
    (hcur : w.current = .empty) (hptr : w.compactPointer = fun _ => none)
    (hlog : w.descriptorLog = none ∨ w.descriptorLog = vs.descriptorLog)
    (hrec : w.recover cfg d = .ok vs') : ManifestInv cfg bounded seen d vs' := by
  obtain ⟨hnone, -⟩ | ⟨m, f, st, hm, hf, hn, hst, hsaved⟩ := h.saved
  · unfold VersionSet.recover at hrec
    rw [hnone] at hrec
    cases hrec
  · obtain ⟨s, hs⟩ := hsaved.lastSequence
    obtain ⟨n, hnext, hle, hlt⟩ := hsaved.nextFile
    rw [hsaved.recover h.writable.canonical hcur hptr hm hf hst hnext hs] at hrec
    injection hrec with hrec
    rw [← hrec]
    have hopen : ∀ k, w.descriptorLog = some k → vs.descriptorLog = some k := by
      intro k hk
      obtain hlog | hlog := hlog
      · rw [hlog] at hk
        cases hk
      · rw [← hlog, hk]
    have hnumbers : bounded → ∀ k, VersionSet.Mentions { w with
        current := vs.current
        compactPointer := vs.compactPointer
        manifestFileNumber := n
        nextFileNumber := n + 1
        lastSequence := s
        logNumber := vs.logNumber
        prevLogNumber := vs.prevLogNumber } k → k ≤ n := by
      intro hb k hk
      cases hk with
      | file hf => exact hlt hb _ (.file hf)
      | logNumber => exact hlt hb _ .logNumber
      | prevLogNumber => exact hlt hb _ .prevLogNumber
      | manifest => exact le_refl _
      | descriptorLog hk => exact hlt hb _ (.descriptorLog (hopen _ hk))
    refine ⟨⟨h.writable.canonical, h.writable.seen, h.writable.numbers, h.writable.keys,
      h.writable.pointers⟩, fun hb k hk => Nat.lt_succ_of_le (hnumbers hb k hk),
      Or.inr ⟨m, f, st, hm, hf, fun k hk => hn k (hopen k hk), hst, ?_⟩⟩
    exact ⟨hsaved.tracks, hsaved.seen, hsaved.pointers, hsaved.logNumber, hsaved.prevLogNumber,
      ⟨s, hs⟩, n, hnext, n.le_succ, hnumbers⟩

theorem ManifestInv.setNumbers (h : ManifestInv cfg bounded seen d vs) (lastSequence : Nat)
    {nextFileNumber : Nat} (hle : vs.nextFileNumber ≤ nextFileNumber) :
    ManifestInv cfg bounded seen d
      { vs with lastSequence := lastSequence, nextFileNumber := nextFileNumber } := by
  have hmentions : ∀ m, VersionSet.Mentions
      { vs with lastSequence := lastSequence, nextFileNumber := nextFileNumber } m →
      vs.Mentions m := by
    intro m hm
    cases hm with
    | file hf => exact .file hf
    | logNumber => exact .logNumber
    | prevLogNumber => exact .prevLogNumber
    | manifest => exact .manifest
    | descriptorLog hn => exact .descriptorLog hn
  refine ⟨⟨h.writable.canonical, h.writable.seen, h.writable.numbers, h.writable.keys,
    h.writable.pointers⟩, fun hb m hm => (h.below hb m (hmentions m hm)).trans_le hle, ?_⟩
  refine h.saved.imp_right ?_
  intro ⟨m, f, st, hm, hf, hn, hst, hsaved⟩
  obtain ⟨n, hnext, hn', hlt⟩ := hsaved.nextFile
  exact ⟨m, f, st, hm, hf, hn, hst, hsaved.tracks, hsaved.seen, hsaved.pointers, hsaved.logNumber,
    hsaved.prevLogNumber, hsaved.lastSequence, n, hnext, hn'.trans hle,
    fun hb k hk => hlt hb k (hmentions k hk)⟩

omit [LinearOrder K] [Inhabited K] in
theorem addedNumbers_append (events : List (Option (VersionEdit K)))
    (e : Option (VersionEdit K)) :
    addedNumbers (events ++ [e]) =
      addedNumbers events ++ (e.map VersionEdit.addedNumbers).getD [] := by
  cases e <;> simp [addedNumbers]

theorem manifestRun_inv {events : List (Option (VersionEdit K))} {s : Disk K V × VersionSet K}
    (h : ManifestRun cfg bounded events s)
    (hacc : ∀ edit, some edit ∈ events → edit.Accepted cfg)
    (honce : (addedNumbers events).Nodup) :
    ManifestInv cfg bounded (addedNumbers events) s.1 s.2 := by
  revert hacc honce
  refine h.invariant (I := fun events s => (∀ edit, some edit ∈ events → edit.Accepted cfg) →
    (addedNumbers events).Nodup → ManifestInv cfg bounded (addedNumbers events) s.1 s.2)
    (fun _ _ => manifestInv_init) ?_
  intro events e s s' _ ih hstep hacc honce
  rw [addedNumbers_append] at honce ⊢
  have hinv := ih (fun edit hmem => hacc edit (mem_append_left _ hmem))
    (nodup_append.mp honce).1
  cases hstep with
  | logAndApply edit hbelow =>
    exact (hinv.logAndApply (hacc edit (by simp)) honce hbelow).inv
  | setNumbers lastSequence hle =>
    rw [map_none, getD_none, append_nil]
    exact hinv.setNumbers lastSequence hle
  | files logs tables =>
    rw [map_none, getD_none, append_nil]
    exact ⟨hinv.writable, hinv.below, hinv.saved⟩
  | reopen hrec =>
    rw [map_none, getD_none, append_nil]
    exact hinv.recover rfl rfl (Or.inl rfl) hrec
  | reload hcur hptr hrec =>
    rw [map_none, getD_none, append_nil]
    exact hinv.recover hcur hptr (Or.inr rfl) hrec

/-- The parts of a version set that a manifest is to restore: the files of every level with
    their numbers, sizes, key ranges and order, the compact pointers, the log numbers and the
    last sequence. -/
structure SameState (vs vs' : VersionSet K) : Prop where
  current : vs'.current = vs.current
  compactPointer : vs'.compactPointer = vs.compactPointer
  logNumber : vs'.logNumber = vs.logNumber
  prevLogNumber : vs'.prevLogNumber = vs.prevLogNumber
  lastSequence : vs'.lastSequence = vs.lastSequence

end Run

/-! ## A file that moves between two sessions -/

def movedFile (number : Nat) : FileMetaData Nat where
  number := number
  fileSize := 1
  smallest := ⟨1, 257⟩
  largest := ⟨1, 257⟩

def addEdit (number : Nat) : VersionEdit Nat where
  newFiles := [(0, movedFile number)]

def movedEdit (number : Nat) : VersionEdit Nat where
  compactPointers := [(0, ⟨1, 257⟩)]
  deletedFiles := [(0, number)]
  newFiles := [(1, movedFile number)]

end LevelDB
