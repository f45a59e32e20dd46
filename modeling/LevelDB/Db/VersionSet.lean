/-
  The version set on disk (`db/version_set.cc`): `LogAndApply`, `WriteSnapshot`, `Recover`.

  `logAndApply` returns the disks it passes through, so that a crash can hit between any two
  steps. There are no I/O errors here.

  A manifest is read back record by record into one builder (`replay`). `Follows b v next` says
  that the builder `b` has accumulated the version `v`, with all file numbers below `next`.
-/
import LevelDB.Db.Disk
import LevelDB.Version.Layered

namespace LevelDB

open List SortedList

variable {K V : Type} [LinearOrder K]

/-! ## Edits on disk -/

namespace VersionEdit

/-- `GetLevel` on a level that has been written. -/
def levelError (level : Nat) : Option Status :=
  if level < kNumLevels then none else some (.corruptionErr "VersionEdit: bad level")

/-- `GetInternalKey` on a key that has been written: an empty key is refused. -/
def keyError [Inhabited K] (k : InternalKey K) : Option Status :=
  if k = .cleared then some (.corruptionErr "VersionEdit: bad InternalKey") else none

/-- The error of `DecodeFrom` on the encoding of the edit, if any. -/
def decodeError [Inhabited K] (edit : VersionEdit K) : Option Status :=
  (edit.compactPointers.findSome? fun p => (levelError p.1).or (keyError p.2)).or
    ((edit.deletedFiles.findSome? fun p => levelError p.1).or
      (edit.newFiles.findSome? fun p =>
        (levelError p.1).or ((keyError p.2.smallest).or (keyError p.2.largest))))

end VersionEdit

/-- Options, and how tables are written: any block layout, as long as a table that is given
    entries in order holds them. -/
structure Config (K V : Type) [LinearOrder K] where
  comparatorName : String
  maxFileSize : Nat
  writeTable : List (Entry K V) → Table K V
  writeTable_entries : ∀ es, Strict Entry.key es → (∀ e ∈ es, e.key.WellFormed) →
    (writeTable es).entries = es
  fileSize : List (Entry K V) → Nat
  fileSize_pos : ∀ es, 0 < fileSize es

def Config.oneBlock (comparatorName : String) (maxFileSize : Nat) : Config K V where
  comparatorName := comparatorName
  maxFileSize := maxFileSize
  writeTable es :=
    if h : Strict Entry.key es ∧ ∀ e ∈ es, e.key.WellFormed then Table.ofEntries es h.1 h.2
    else Table.ofEntries [] Table.strict_nil Table.wellFormed_nil
  writeTable_entries := by
    intro es hstrict hwf
    rw [dif_pos ⟨hstrict, hwf⟩, Table.entries_ofEntries]
  fileSize es := es.length + 1
  fileSize_pos := fun _ => Nat.succ_pos _

/-! ## The version set -/

/-- `class VersionSet`. `descriptorLog` is the number of the manifest that is open for
    appending. -/
structure VersionSet (K : Type) where
  current : Version K
  compactPointer : Nat → Option (InternalKey K)
  nextFileNumber : Nat
  manifestFileNumber : Nat
  lastSequence : Nat
  logNumber : Nat
  prevLogNumber : Nat
  descriptorLog : Option Nat

/-- `VersionSet::VersionSet`. -/
def VersionSet.init : VersionSet K where
  current := .empty
  compactPointer := fun _ => none
  nextFileNumber := 2
  manifestFileNumber := 0
  lastSequence := 0
  logNumber := 0
  prevLogNumber := 0
  descriptorLog := none

/-- `compact_pointer_` after `Builder::Apply`. An empty key is no pointer. -/
def applyCompactPointers [Inhabited K] (pointers : Nat → Option (InternalKey K))
    (edit : VersionEdit K) : Nat → Option (InternalKey K) :=
  edit.compactPointers.foldl
    (fun ptrs p => Function.update ptrs p.1 (if p.2 = .cleared then none else some p.2)) pointers

/-- Where `LogAndApply` got to: the disks before the last one, and its results. -/
structure Applied (K V : Type) [LinearOrder K] where
  passed : List (Disk K V)
  disk : Disk K V
  versions : VersionSet K

namespace VersionSet

def markFileNumberUsed (vs : VersionSet K) (number : Nat) : VersionSet K :=
  if vs.nextFileNumber ≤ number then { vs with nextFileNumber := number + 1 } else vs

/-- The edit as `LogAndApply` completes it. -/
def completeEdit (vs : VersionSet K) (edit : VersionEdit K) : VersionEdit K :=
  { edit with
    logNumber := some (edit.logNumber.getD vs.logNumber)
    prevLogNumber := some (edit.prevLogNumber.getD vs.prevLogNumber)
    nextFileNumber := some vs.nextFileNumber
    lastSequence := some vs.lastSequence }

/-- The record of `WriteSnapshot`. -/
def snapshotEdit (cfg : Config K V) (vs : VersionSet K) : VersionEdit K where
  comparator := some cfg.comparatorName
  compactPointers := (List.range kNumLevels).filterMap fun level =>
    (vs.compactPointer level).map fun k => (level, k)
  newFiles := (List.range kNumLevels).flatMap fun level =>
    (vs.current.files level).map fun f => (level, f)

/-- `VersionSet::LogAndApply`, without errors. -/
def logAndApply [Inhabited K] (cfg : Config K V) (vs : VersionSet K) (d : Disk K V) (edit : VersionEdit K) :
    Applied K V :=
  let edit := vs.completeEdit edit
  let vs' := { vs with
    current := vs.current.applyEdit edit
    compactPointer := applyCompactPointers vs.compactPointer edit
    logNumber := edit.logNumber.getD vs.logNumber
    prevLogNumber := edit.prevLogNumber.getD vs.prevLogNumber }
  match vs.descriptorLog with
  | some n =>
    let f := ((d.manifests n).getD .empty).append edit
    { passed := [d, d.setManifest n f], disk := d.setManifest n f.sync, versions := vs' }
  | none =>
    let n := vs.manifestFileNumber
    let snapshot := snapshotEdit cfg { vs with compactPointer := vs'.compactPointer }
    let f : LogFile (VersionEdit K) := (LogFile.empty.append snapshot).append edit
    { passed := [d, d.setManifest n .empty, d.setManifest n (LogFile.empty.append snapshot),
        d.setManifest n f, d.setManifest n f.sync]
      disk := (d.setManifest n f.sync).setCurrent n
      versions := { vs' with descriptorLog := some n } }

end VersionSet

/-! ## Reading a manifest -/

/-- The variables of `VersionSet::Recover` while it reads the manifest. -/
structure Replay (K : Type) where
  builder : Builder K
  compactPointer : Nat → Option (InternalKey K)
  nextFile : Option Nat
  lastSequence : Option Nat
  logNumber : Option Nat
  prevLogNumber : Option Nat

def Replay.apply [Inhabited K] (st : Replay K) (edit : VersionEdit K) : Replay K where
  builder := st.builder.apply edit
  compactPointer := applyCompactPointers st.compactPointer edit
  nextFile := edit.nextFileNumber.or st.nextFile
  lastSequence := edit.lastSequence.or st.lastSequence
  logNumber := edit.logNumber.or st.logNumber
  prevLogNumber := edit.prevLogNumber.or st.prevLogNumber

/-- The loop of `VersionSet::Recover` over the records. -/
def replay [Inhabited K] (cfg : Config K V) : List (VersionEdit K) → Replay K →
    Except Status (Replay K)
  | [], st => .ok st
  | edit :: rest, st =>
    match edit.decodeError with
    | some s => .error s
    | none =>
      match edit.comparator.filter (· ≠ cfg.comparatorName) with
      | some name =>
        .error (.invalidArgument
          (name ++ " does not match existing comparator : " ++ cfg.comparatorName))
      | none => replay cfg rest (st.apply edit)

/-- `VersionSet::Recover`. `next_file_number_` is set last, so that what
    `MarkFileNumberUsed` did before has no effect. -/
def VersionSet.recover [Inhabited K] (cfg : Config K V) (vs : VersionSet K) (d : Disk K V) :
    Except Status (VersionSet K) :=
  match d.manifestRecords with
  | none => .error (.notFoundErr "CURRENT")
  | some (_, records) =>
    match replay cfg records ⟨.empty, vs.compactPointer, none, none, none, none⟩ with
    | .error s => .error s
    | .ok st =>
      match st.nextFile, st.logNumber, st.lastSequence with
      | none, _, _ => .error (.corruptionErr "no meta-nextfile entry in descriptor")
      | _, none, _ => .error (.corruptionErr "no meta-lognumber entry in descriptor")
      | _, _, none => .error (.corruptionErr "no last-sequence-number entry in descriptor")
      | some nextFile, some logNumber, some lastSequence =>
        .ok { vs with
          current := st.builder.saveTo vs.current
          compactPointer := st.compactPointer
          manifestFileNumber := nextFile
          nextFileNumber := nextFile + 1
          lastSequence := lastSequence
          logNumber := logNumber
          prevLogNumber := st.prevLogNumber.getD 0 }

/-! ## Which edits are accepted -/

section Accept

variable [Inhabited K] {cfg : Config K V} {edit : VersionEdit K}

theorem VersionEdit.decodeError_eq_none_iff :
    edit.decodeError = none ↔
      (∀ p ∈ edit.compactPointers, p.1 < kNumLevels ∧ p.2 ≠ .cleared) ∧
      (∀ p ∈ edit.deletedFiles, p.1 < kNumLevels) ∧
      (∀ p ∈ edit.newFiles, p.1 < kNumLevels ∧ p.2.smallest ≠ .cleared ∧ p.2.largest ≠ .cleared) := by
  unfold decodeError levelError keyError
  simp only [Option.or_eq_none_iff, findSome?_eq_none_iff, ite_eq_left_iff, ite_eq_right_iff,
    reduceCtorEq, imp_false, not_not]

/-- `Recover` accepts the edit: it decodes, and a comparator name is the right one. -/
structure VersionEdit.Accepted (cfg : Config K V) (edit : VersionEdit K) : Prop where
  decodes : edit.decodeError = none
  comparator : edit.comparator.filter (· ≠ cfg.comparatorName) = none

theorem replay_cons_of_accepted (h : edit.Accepted cfg) (rest : List (VersionEdit K))
    (st : Replay K) : replay cfg (edit :: rest) st = replay cfg rest (st.apply edit) := by
  rw [replay, h.decodes, h.comparator]

theorem replay_cons_ok {rest : List (VersionEdit K)} {st st' : Replay K}
    (h : replay cfg (edit :: rest) st = .ok st') :
    edit.Accepted cfg ∧ replay cfg rest (st.apply edit) = .ok st' := by
  rw [replay] at h
  cases hd : edit.decodeError with
  | some s => rw [hd] at h; cases h
  | none =>
    cases hc : edit.comparator.filter (· ≠ cfg.comparatorName) with
    | some name => rw [hd, hc] at h; cases h
    | none => rw [hd, hc] at h; exact ⟨⟨hd, hc⟩, h⟩

theorem replay_append {a b : List (VersionEdit K)} {st st' : Replay K}
    (h : replay cfg a st = .ok st') : replay cfg (a ++ b) st = replay cfg b st' := by
  induction a generalizing st with
  | nil =>
    injection h with h
    rw [h]
    rfl
  | cons edit a ih =>
    obtain ⟨hacc, h⟩ := replay_cons_ok h
    rw [cons_append, replay_cons_of_accepted hacc, ih h]

theorem accepted_of_replay {records : List (VersionEdit K)} {st st' : Replay K}
    (h : replay cfg records st = .ok st') : ∀ edit ∈ records, edit.Accepted cfg := by
  induction records generalizing st with
  | nil => intro edit hmem; exact absurd hmem not_mem_nil
  | cons x records ih =>
    obtain ⟨hacc, h⟩ := replay_cons_ok h
    intro edit hmem
    obtain rfl | hmem := mem_cons.mp hmem
    · exact hacc
    · exact ih h edit hmem

end Accept

/-! ## Builders that follow the current version -/

/-- The builder has accumulated `v`; file numbers are below `next`; and a file of `v` has
    never been added at a deeper level than its own. -/
structure Follows (b : Builder K) (v : Version K) (next : Nat) : Prop where
  tracks : Tracks b v
  below : ∀ level, ∀ f ∈ (b level).addedFiles, f.number < next
  deeper : ∀ level, ∀ f ∈ v.files level, ∀ l, level < l → ∀ g ∈ (b l).addedFiles,
    g.number ≠ f.number

namespace Follows

variable {b : Builder K} {v : Version K} {next next' : Nat} {edit : VersionEdit K}

theorem number_lt (h : Follows b v next) {level : Nat} {f : FileMetaData K}
    (hf : f ∈ v.files level) : f.number < next :=
  h.below level f ((h.tracks.mem level (Version.level_lt hf) f).mp hf).1

section

variable (h : Follows b v next) (hle : next ≤ next')
include h hle

theorem mono : Follows b v next' :=
  ⟨h.tracks, fun level f hf => (h.below level f hf).trans_le hle, h.deeper⟩

theorem apply (hfresh : ∀ level, FreshAt (b level).addedFiles (edit.newFilesAt level))
    (hbelow : ∀ level, ∀ f ∈ edit.newFilesAt level, f.number < next')
    (hnew : ∀ level, ∀ f ∈ edit.newFilesAt level, ∀ l, level < l →
      (∀ g ∈ (b l).addedFiles, g.number ≠ f.number) ∧
      ∀ g ∈ edit.newFilesAt l, g.number ≠ f.number)
    (hold : ∀ level, ∀ f ∈ (v.applyEdit edit).files level, f ∈ v.files level → ∀ l, level < l →
      ∀ g ∈ edit.newFilesAt l, g.number ≠ f.number) :
    Follows (b.apply edit) (v.applyEdit edit) next' := by
  refine ⟨h.tracks.apply hfresh, ?_, ?_⟩
  · intro level f hf
    obtain hf | hf := (LevelState.mem_apply_added (hfresh level) f).mp hf
    · exact (h.below level f hf).trans_le hle
    · exact hbelow level f hf
  · intro level f hf l hl g hg
    have hv : FreshAt (v.files level) (edit.newFilesAt level) :=
      ⟨(hfresh level).1, fun x hx y hy =>
        (hfresh level).2 x hx y ((h.tracks.mem level (Version.level_lt hy) y).mp hy).1⟩
    obtain hg | hg := (LevelState.mem_apply_added (hfresh l) g).mp hg
    · obtain hf' | ⟨hf', -⟩ := (Version.mem_applyEdit hv (Version.level_lt hf)).mp hf
      · exact (hnew level f hf' l hl).1 g hg
      · exact h.deeper level f hf' l hl g hg
    · grind [Version.mem_applyEdit, Version.level_lt]

theorem fresh (hnodup : (edit.newFiles.map fun p => p.2.number).Nodup)
    (hrange : ∀ p ∈ edit.newFiles, next ≤ p.2.number ∧ p.2.number < next') :
    Follows (b.apply edit) (v.applyEdit edit) next' := by
  have hseen : ∀ level, ∀ f ∈ edit.newFilesAt level, ∀ l, ∀ g ∈ (b l).addedFiles,
      g.number ≠ f.number := by
    intro level f hf l g hg
    have hge := (hrange _ (VersionEdit.mem_newFilesAt.mp hf)).1
    exact ((h.below l g hg).trans_le hge).ne
  refine h.apply hle ?_ ?_ ?_ ?_
  · intro level
    refine ⟨?_, fun f hf g hg => hseen level f hf level g hg⟩
    unfold VersionEdit.newFilesAt
    rw [List.map_map]
    exact hnodup.sublist (filter_sublist.map _)
  · intro level f hf
    exact (hrange _ (VersionEdit.mem_newFilesAt.mp hf)).2
  · grind [inj_on_of_nodup_map, VersionEdit.mem_newFilesAt, Prod.mk.inj]
  · intro level f _ hf l _ g hg
    have hge := (hrange _ (VersionEdit.mem_newFilesAt.mp hg)).1
    exact ((h.number_lt hf).trans_le hge).ne'

end

theorem move {store : TableStore K V} (h : Follows b v next) (hv : v.Layered store)
    {c : Compaction K} (hc : Closed v c) {f : FileMetaData K} (h0 : c.inputs0 = [f]) :
    Follows (b.apply c.moveEdit) (v.applyEdit c.moveEdit) next := by
  have hf : f ∈ v.files c.level := hc.sub0 f (by rw [h0]; exact mem_singleton.mpr rfl)
  have hat : ∀ {level : Nat} {g : FileMetaData K}, g ∈ c.moveEdit.newFilesAt level →
      level = c.level + 1 ∧ g = f := fun hg => (mem_moveEdit_newFilesAt h0).mp hg
  have hfreshv := moveEdit_freshAt hv.shape hc h0
  refine h.apply (le_refl _) ?_ ?_ ?_ ?_
  · intro level
    refine ⟨(hfreshv level).1, ?_⟩
    intro x hx g hg
    obtain ⟨rfl, rfl⟩ := hat hx
    exact h.deeper c.level x hf _ (Nat.lt_succ_self _) g hg
  · intro level x hx
    rw [(hat hx).2]
    exact h.number_lt hf
  · intro level x hx l hl
    obtain ⟨rfl, rfl⟩ := hat hx
    refine ⟨fun g hg => h.deeper c.level x hf l (by omega) g hg, ?_⟩
    intro g hg
    have := (hat hg).1
    omega
  · intro level x hx' hx l hl g hg heq
    obtain ⟨rfl, rfl⟩ := hat hg
    obtain ⟨rfl, rfl⟩ := hv.numbers _ _ g hf x hx heq
    -- the file has left its old level
    obtain hnew | ⟨-, hdel⟩ := (Version.mem_applyEdit (hfreshv c.level) (Version.level_lt hf)).mp hx'
    · have := (hat hnew).1
      omega
    · apply hdel
      rw [VersionEdit.mem_deletedAt, (moveEdit_files h0).2]
      exact mem_singleton.mpr rfl

end Follows

theorem flatMap_range_ite {α : Type} (F : Nat → List α) (i n : Nat) :
    ((List.range n).flatMap fun j => if j = i then F j else []) = if i < n then F i else [] := by
  induction n with
  | zero => rfl
  | succ n ih =>
    rw [range_succ, flatMap_append, ih, flatMap_singleton]
    obtain hlt | rfl | hgt := lt_trichotomy i n
    · rw [if_pos hlt, if_neg hlt.ne', if_pos (by omega), append_nil]
    · rw [if_neg (lt_irrefl _), if_pos rfl, if_pos (by omega), nil_append]
    · rw [if_neg (by omega), if_neg (by omega), if_neg (by omega), append_nil]

theorem snapshotEdit_newFilesAt (cfg : Config K V) (vs : VersionSet K) (level : Nat) :
    (vs.snapshotEdit cfg).newFilesAt level = vs.current.files level := by
  have hlevel : ∀ l, (((vs.current.files l).map fun f => (l, f)).filter fun p => p.1 == level).map
      Prod.snd = if l = level then vs.current.files l else [] := by
    intro l
    rw [List.filter_map]
    by_cases hl : l = level
    · simp [hl, Function.comp_def]
    · simp [hl, Function.comp_def]
  unfold VersionEdit.newFilesAt VersionSet.snapshotEdit
  dsimp only
  rw [filter_flatMap, map_flatMap]
  simp only [hlevel]
  rw [flatMap_range_ite]
  split_ifs with hlt
  · rfl
  · rw [vs.current.files_eq_nil level (not_lt.mp hlt)]

section Snapshot

variable {cfg : Config K V} {vs : VersionSet K}

theorem snapshotEdit_freshAt (hv : vs.current.Canonical)
    (hnum : ∀ level, ∀ f ∈ vs.current.files level, ∀ g ∈ vs.current.files level,
      f.number = g.number → f = g) (level : Nat) :
    FreshAt (Builder.empty (K := K) level).addedFiles ((vs.snapshotEdit cfg).newFilesAt level) := by
  rw [snapshotEdit_newFilesAt]
  refine ⟨List.Nodup.map_on ?_ (hv level).nodup, fun _ _ g hg => absurd hg not_mem_nil⟩
  intro f hf g hg heq
  exact hnum level f hf g hg heq

section

variable
  (hfresh : ∀ level, FreshAt (Builder.empty (K := K) level).addedFiles ((vs.snapshotEdit cfg).newFilesAt level))
include hfresh

theorem mem_addedFiles_snapshot
 (level : Nat) (f : FileMetaData K) :
    f ∈ (Builder.empty.apply (vs.snapshotEdit cfg) level).addedFiles ↔
      f ∈ vs.current.files level := by
  rw [Builder.apply, LevelState.mem_apply_added (hfresh level), snapshotEdit_newFilesAt]
  simp [Builder.empty]

theorem tracks_snapshot
 :
    Tracks (Builder.empty.apply (vs.snapshotEdit cfg)) vs.current := by
  refine ⟨?_, fun level => LevelState.addFiles_bySmallest _ List.Pairwise.nil⟩
  intro level _ f
  rw [mem_addedFiles_snapshot hfresh]
  refine ⟨fun hf => ⟨hf, ?_⟩, And.left⟩
  rw [Builder.apply, LevelState.mem_apply_deleted]
  intro h
  obtain hdel | hdel := h.1
  · exact not_mem_nil hdel
  · exact not_mem_nil (VersionEdit.mem_deletedAt.mp hdel)

end

theorem follows_snapshot {next : Nat} {store : TableStore K V} (hv : vs.current.Layered store)
    (hlt : ∀ level, ∀ f ∈ vs.current.files level, f.number < next) :
    Follows (Builder.empty.apply (vs.snapshotEdit cfg)) vs.current next := by
  have hfresh : ∀ level, FreshAt (Builder.empty (K := K) level).addedFiles
      ((vs.snapshotEdit cfg).newFilesAt level) :=
    snapshotEdit_freshAt hv.canonical
      fun level f hf g hg heq => (hv.numbers level level f hf g hg heq).2
  refine ⟨tracks_snapshot hfresh, ?_, ?_⟩
  · intro level f hf
    exact hlt level f ((mem_addedFiles_snapshot hfresh level f).mp hf)
  · intro level f hf l hl g hg heq
    have hg' := (mem_addedFiles_snapshot hfresh l g).mp hg
    exact hl.ne' (hv.numbers l level g hg' f hf heq).1

end Snapshot

end LevelDB
