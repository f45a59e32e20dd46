/-
  File numbers across sessions (`db/version_set.cc`, `db/db_impl.cc`).

  Logs, tables and manifests all get their numbers from `next_file_number_`. A manifest records
  it with every edit, so that a crash may take it back to an older value. `Creates` lists the
  calls of `NewWritableFile`, with what there is at each call.

  `Recorded` says that the next file number in a manifest, whichever record it is read up to, is
  above all numbers there; `Allotted` says the same of the running database.
-/
import LevelDB.Db.Durability
import LevelDB.Db.Manifest

namespace LevelDB

open List Option Transition

variable {K V : Type} [LinearOrder K]

/-! ## Calls of `NewWritableFile` -/

inductive NewFile where
  | table (number : Nat)
  | log (number : Nat)
  | manifest (number : Nat)

/-- A call of `NewWritableFile`, with the version set and the disk at the time. -/
structure Creation (K V : Type) [LinearOrder K] where
  versions : VersionSet K
  disk : Disk K V
  file : NewFile

/-- The call truncates a table of the current version, an existing log from the manifest's log
    number on, or the manifest that CURRENT names. -/
def Creation.Truncates (c : Creation K V) : Prop :=
  match c.file with
  | .table number => ∃ level, ∃ f ∈ c.versions.current.files level, f.number = number
  | .log number => number ∈ c.disk.logs.keys ∧ c.versions.logNumber ≤ number
  | .manifest number => c.disk.current = some number

section Calls

variable [Inhabited K]

/-- The call in `LogAndApply`. -/
def VersionSet.applyCreations (vs : VersionSet K) (d : Disk K V) : List (Creation K V) :=
  if vs.descriptorLog.isNone then [⟨vs, d, .manifest vs.manifestFileNumber⟩] else []

def Db.flushCreations (cfg : Config K V) (s : Db K V) (imm : MemTable K V) : List (Creation K V) :=
  let number := s.versions.nextFileNumber
  let vs := { s.versions with nextFileNumber := number + 1 }
  let built := buildTableOn cfg s.disk number imm
  ⟨vs, s.disk, .table number⟩ ::
    if 0 < (buildTable cfg number imm).fileSize then vs.applyCreations built.2 else []

variable [Inhabited V]

/-- The calls in `RecoverLogFile`, for the logs from `st` on. -/
def recoverCreations (cfg : Config K V) : Recovering K V → List Nat → List (Creation K V)
  | _, [] => []
  | st, logNumber :: rest =>
    (match st.disk.logs.lookup logNumber with
      | none => []
      | some file =>
        if 0 < (file.records.flatMap WriteBatch.ops).length then
          [⟨st.versions, st.disk, .table st.versions.nextFileNumber⟩]
        else []) ++ recoverCreations cfg (recoverLogStep cfg st logNumber) rest

/-- The call at the end of `Recover`. -/
def finishCreations (st : Recovering K V) : List (Creation K V) :=
  if st.saveManifest then st.versions.applyCreations st.disk else []

/-- The calls in `DB::Open`. -/
def openCreations (cfg : Config K V) (d : Disk K V) : List (Creation K V) :=
  let start := createIfMissing cfg d
  (if d.current.isNone then VersionSet.init.applyCreations d else []) ++
    match start.versions.recover cfg start.disk with
    | .error _ => []
    | .ok vs =>
      let st := recoverLogs cfg start.disk vs
      let done := finishRecovery cfg st
      recoverCreations cfg ⟨[], start.disk, vs, {}, false, 0⟩
          (liveLogs start.disk.logs vs.logNumber vs.prevLogNumber) ++
        finishCreations st ++ [⟨done.versions, done.disk, .log done.versions.nextFileNumber⟩]

inductive Creates (cfg : Config K V) : State K V → Creation K V → Prop where
  | switchMemTable {s : Db K V} (himm : s.imm = none) :
      Creates cfg (.opened s) ⟨s.versions, s.disk, .log s.versions.nextFileNumber⟩
  | flush {s : Db K V} {imm : MemTable K V} {c : Creation K V} (himm : s.imm = some imm)
      (hjob : s.job = none) (hc : c ∈ s.flushCreations cfg imm) : Creates cfg (.opened s) c
  | moveFile {s : Db K V} {c : Creation K V} (hjob : s.job = none)
      (hc : c ∈ s.versions.applyCreations s.disk) : Creates cfg (.opened s) c
  | startCompaction {s : Db K V} (hjob : s.job = none) :
      Creates cfg (.opened s) ⟨s.versions, s.disk, .table s.versions.nextFileNumber⟩
  | installCompaction {s : Db K V} {output : Output K V} {c : Creation K V}
      (hc : c ∈ s.versions.applyCreations (output.elim s.disk fun p =>
        s.disk.finishTable p.1.number (cfg.writeTable p.2))) :
      Creates cfg (.opened s) c
  | reopen {d : Disk K V} {c : Creation K V} (hc : c ∈ openCreations cfg d) :
      Creates cfg (.closed d) c

end Calls

/-! ## Numbers in a manifest -/

section Recorded

variable [Inhabited K] {cfg : Config K V} {m next next' : Nat} {st st' : Replay K}
  {edit : VersionEdit K} {records : List (VersionEdit K)}

/-- The edit only has numbers below `next`. -/
structure VersionEdit.Under (edit : VersionEdit K) (next : Nat) : Prop where
  files : ∀ p ∈ edit.newFiles, p.2.number < next
  logNumber : ∀ n, edit.logNumber = some n → n < next

/-- What has been read from manifest `m` only has numbers below `next`. -/
structure Replay.Under (st : Replay K) (m next : Nat) : Prop where
  manifest : m < next
  files : ∀ level, ∀ f ∈ (st.builder level).addedFiles, f.number < next
  logNumber : ∀ n, st.logNumber = some n → n < next

omit [LinearOrder K] [Inhabited K] in
theorem Replay.Under.mono (h : st.Under m next) (hle : next ≤ next') : st.Under m next' :=
  ⟨h.manifest.trans_le hle, fun level f hf => (h.files level f hf).trans_le hle,
    fun n hn => (h.logNumber n hn).trans_le hle⟩

omit [LinearOrder K] [Inhabited K] in
theorem Replay.under_start (h : m < next) : (Replay.start : Replay K).Under m next :=
  ⟨h, fun _ _ hf => absurd hf not_mem_nil, fun _ hn => absurd hn nofun⟩

omit [Inhabited K] in
theorem LevelState.mem_of_addFiles {added : List (FileMetaData K)} {f : FileMetaData K} :
    ∀ {l : LevelState K}, f ∈ (l.addFiles added).addedFiles → f ∈ l.addedFiles ∨ f ∈ added := by
  induction added with
  | nil => exact fun h => Or.inl h
  | cons g added ih =>
    intro l h
    obtain h | h := ih h
    · obtain rfl | h := mem_of_mem_insertFile h
      · exact Or.inr mem_cons_self
      · exact Or.inl h
    · exact Or.inr (mem_cons_of_mem _ h)

omit [Inhabited K] in
theorem Version.mem_of_applyEdit {v : Version K} {level : Nat} {f : FileMetaData K}
    (h : f ∈ (v.applyEdit edit).files level) :
    f ∈ v.files level ∨ f ∈ edit.newFilesAt level := by
  have hlevel : level < kNumLevels := Version.level_lt h
  unfold Version.applyEdit Builder.saveTo at h
  dsimp only at h
  rw [if_pos hlevel] at h
  obtain h | h := (LevelState.mem_save.mp h).1
  · exact Or.inl h
  · obtain h | h := LevelState.mem_of_addFiles h
    · exact absurd h not_mem_nil
    · exact Or.inr h

theorem Replay.Under.apply (h : st.Under m next) (he : edit.Under next) :
    (st.apply edit).Under m next := by
  refine ⟨h.manifest, ?_, ?_⟩
  · intro level f hf
    obtain hf | hf := LevelState.mem_of_addFiles hf
    · exact h.files level f hf
    · exact he.files _ (VersionEdit.mem_newFilesAt.mp hf)
  · intro n hn
    obtain hn | ⟨-, hn⟩ := or_eq_some_iff.mp hn
    · exact he.logNumber n hn
    · exact h.logNumber n hn

theorem replay_append_singleton (h : replay cfg (records ++ [edit]) st = .ok st') :
    ∃ before, replay cfg records st = .ok before ∧ st' = before.apply edit := by
  induction records generalizing st with
  | nil =>
    obtain ⟨-, h⟩ := replay_cons_ok h
    injection h with h
    exact ⟨st, rfl, h.symm⟩
  | cons x records ih =>
    grind [replay_cons_ok, replay_cons_of_accepted]

/-- Whichever record manifest `m` is read up to, the next file number found is above all other
    numbers found, and above `m`. -/
def Recorded (cfg : Config K V) (m : Nat) (records : List (VersionEdit K)) : Prop :=
  ∀ n st next, replay cfg (records.take n) .start = .ok st → st.nextFile = some next →
    st.Under m next

theorem Recorded.take (h : Recorded cfg m records) (n : Nat) : Recorded cfg m (records.take n) := by
  intro k st next hst hnext
  rw [take_take] at hst
  exact h _ st next hst hnext

theorem Recorded.append (h : Recorded cfg m records)
    (hlast : ∀ st, replay cfg records .start = .ok st → st.Under m next)
    (hnext : edit.nextFileNumber = some next) (he : edit.Under next) :
    Recorded cfg m (records ++ [edit]) := by
  intro n st k hst hk
  by_cases hn : n ≤ records.length
  · rw [take_append_of_le_length hn] at hst
    exact h n st k hst hk
  · rw [take_of_length_le (by simp; omega)] at hst
    obtain ⟨before, hb, rfl⟩ := replay_append_singleton hst
    have hkn : k = next := by
      have : (before.apply edit).nextFile = some next := by simp [Replay.apply, hnext]
      exact Option.some.inj (hk.symm.trans this)
    rw [hkn]
    exact (hlast before hb).apply he

theorem recorded_nil : Recorded cfg m [] := by
  intro n st next hst hnext
  rw [take_nil] at hst
  injection hst with hst
  rw [← hst] at hnext
  cases hnext

theorem recorded_singleton (hnone : edit.nextFileNumber = none) : Recorded cfg m [edit] := by
  intro n st next hst hnext
  cases n with
  | zero => exact recorded_nil 0 st next hst hnext
  | succ n =>
    rw [take_of_length_le (by simp), ← nil_append [edit]] at hst
    obtain ⟨before, hb, rfl⟩ := replay_append_singleton hst
    injection hb with hb
    rw [← hb] at hnext
    simp [Replay.apply, Replay.start, hnone] at hnext

end Recorded

/-! ## Numbers of the running database -/

def Disk.recordsAt (d : Disk K V) (m : Nat) : List (VersionEdit K) :=
  ((d.manifests m).getD .empty).records

theorem Disk.recordsAt_setManifest (d : Disk K V) (m : Nat) (f : LogFile (VersionEdit K)) :
    (d.setManifest m f).recordsAt m = f.records := by
  unfold Disk.recordsAt
  rw [Disk.manifests_setManifest]
  rfl

theorem Disk.recordsAt_setManifest_of_ne (d : Disk K V) {m k : Nat} (f : LogFile (VersionEdit K))
    (hne : m ≠ k) : (d.setManifest k f).recordsAt m = d.recordsAt m := by
  unfold Disk.recordsAt Disk.setManifest
  dsimp only
  rw [Function.update_of_ne hne]

section Allotted

variable [Inhabited K] {cfg : Config K V} {d d' : Disk K V} {vs : VersionSet K}
  {edit : VersionEdit K}

def Disk.Recorded (cfg : Config K V) (d : Disk K V) : Prop :=
  ∀ m, d.current = some m → LevelDB.Recorded cfg m (d.recordsAt m)

theorem Disk.Recorded.congr (h : d.Recorded cfg) (hcur : d'.current = d.current)
    (hrec : ∀ m, d.current = some m → d'.recordsAt m = d.recordsAt m) : d'.Recorded cfg := by
  intro m hm
  rw [hcur] at hm
  rw [hrec m hm]
  exact h m hm

theorem Disk.Recorded.cut (h : d.Recorded cfg) (hcut : d.Cut d') : d'.Recorded cfg := by
  intro m hm
  rw [hcut.current] at hm
  have hman := hcut.manifests m
  have hrec := h m hm
  unfold Disk.recordsAt at hrec ⊢
  revert hrec hman
  generalize d.manifests m = o
  generalize d'.manifests m = o'
  intro hman hrec
  cases hman with
  | none => exact hrec
  | some hcut =>
    obtain ⟨-, n, -, hr⟩ := hcut
    rw [getD_some, hr]
    exact hrec.take n

/-- All numbers in use are below the next file number: those of the current version, those in
    the manifest that CURRENT names, and its own. If no manifest is open, the next one is
    another. -/
structure Allotted (cfg : Config K V) (vs : VersionSet K) (d : Disk K V) : Prop where
  files : ∀ level, ∀ f ∈ vs.current.files level, f.number < vs.nextFileNumber
  logNumber : vs.logNumber < vs.nextFileNumber
  manifest : vs.manifestFileNumber < vs.nextFileNumber
  opened : ∀ m, vs.descriptorLog = some m → d.current = some m
  another : vs.descriptorLog = none → d.current ≠ some vs.manifestFileNumber
  recorded : d.Recorded cfg
  last : ∀ m, d.current = some m → ∀ st, replay cfg (d.recordsAt m) .start = .ok st →
    st.Under m vs.nextFileNumber

namespace Allotted

theorem congr (h : Allotted cfg vs d) {next : Nat} (hnext : vs.nextFileNumber ≤ next) (s : Nat)
    (hcur : d'.current = d.current) (hman : d'.manifests = d.manifests) :
    Allotted cfg { vs with nextFileNumber := next, lastSequence := s } d' := by
  have hrec : ∀ m, d'.recordsAt m = d.recordsAt m := by
    intro m
    unfold Disk.recordsAt
    rw [hman]
  refine ⟨fun level f hf => (h.files level f hf).trans_le hnext, h.logNumber.trans_le hnext,
    h.manifest.trans_le hnext, ?_, ?_, h.recorded.congr hcur fun m _ => hrec m, ?_⟩
  · intro m hm
    rw [hcur]
    exact h.opened m hm
  · intro hnone
    rw [hcur]
    exact h.another hnone
  · intro m hm st hst
    rw [hcur] at hm
    rw [hrec] at hst
    exact (h.last m hm st hst).mono hnext

theorem completeEdit (h : Allotted cfg vs d) (he : edit.Under vs.nextFileNumber) :
    (vs.completeEdit edit).Under vs.nextFileNumber := by
  refine ⟨he.files, ?_⟩
  intro n hn
  obtain rfl := Option.some.inj hn
  cases hl : edit.logNumber with
  | none => exact h.logNumber
  | some l => exact he.logNumber l hl

theorem snapshotEdit (h : Allotted cfg vs d) (pointers : Nat → Option (InternalKey K)) :
    (VersionSet.snapshotEdit cfg { vs with compactPointer := pointers }).Under
      vs.nextFileNumber := by
  refine ⟨?_, fun n hn => absurd hn nofun⟩
  intro p hp
  obtain ⟨level, -, hp⟩ := mem_flatMap.mp hp
  obtain ⟨f, hf, rfl⟩ := List.mem_map.mp hp
  exact h.files level f hf

theorem applyEdit (h : Allotted cfg vs d) (he : edit.Under vs.nextFileNumber) :
    ∀ level, ∀ f ∈ (vs.current.applyEdit edit).files level, f.number < vs.nextFileNumber := by
  intro level f hf
  obtain hf | hf := Version.mem_of_applyEdit hf
  · exact h.files level f hf
  · exact he.files _ (VersionEdit.mem_newFilesAt.mp hf)

end Allotted

theorem recorded_append {m next : Nat} {f : LogFile (VersionEdit K)} {records : List (VersionEdit K)}
    (hcur : d.current = some m) (hf : f.records = records ++ [edit])
    (h : Recorded cfg m records) (hlast : ∀ st, replay cfg records .start = .ok st → st.Under m next)
    (hnext : edit.nextFileNumber = some next) (he : edit.Under next) :
    (d.setManifest m f).Recorded cfg ∧
      ∀ st, replay cfg ((d.setManifest m f).recordsAt m) .start = .ok st → st.Under m next := by
  rw [Disk.recordsAt_setManifest, hf]
  refine ⟨?_, ?_⟩
  · intro k hk
    obtain rfl := Option.some.inj (hcur.symm.trans hk)
    rw [Disk.recordsAt_setManifest, hf]
    exact h.append hlast hnext he
  · intro st hst
    obtain ⟨before, hb, rfl⟩ := replay_append_singleton hst
    exact (hlast before hb).apply he

theorem logAndApply_allotted (h : Allotted cfg vs d) (he : edit.Under vs.nextFileNumber) :
    Allotted cfg (vs.logAndApply cfg d edit).versions (vs.logAndApply cfg d edit).disk ∧
      ∀ x ∈ (vs.logAndApply cfg d edit).passed, x.Recorded cfg := by
  have hfiles := h.applyEdit he
  have hedit := h.completeEdit he
  have hlog : edit.logNumber.getD vs.logNumber < vs.nextFileNumber := hedit.logNumber _ rfl
  rw [logAndApply_versions]
  unfold VersionSet.logAndApply
  cases hdesc : vs.descriptorLog with
  | some m =>
    have hcur := h.opened m hdesc
    have hadd : ∀ f : LogFile (VersionEdit K), f.records = d.recordsAt m ++ [vs.completeEdit edit] →
        (d.setManifest m f).Recorded cfg ∧
          ∀ st, replay cfg ((d.setManifest m f).recordsAt m) .start = .ok st →
            st.Under m vs.nextFileNumber := fun f hf =>
      recorded_append hcur hf (h.recorded m hcur) (h.last m hcur) rfl hedit
    refine ⟨⟨hfiles, hlog, h.manifest, ?_, fun hnone => absurd hnone nofun, (hadd _ rfl).1, ?_⟩, ?_⟩
    · intro k hk
      obtain rfl := Option.some.inj hk
      exact hcur
    · intro k hk
      obtain rfl := Option.some.inj (hcur.symm.trans hk)
      exact (hadd _ rfl).2
    · intro x hx
      obtain rfl | hx := mem_cons.mp hx
      · exact h.recorded
      · obtain rfl := mem_singleton.mp hx
        exact (hadd _ rfl).1
  | none =>
    have hother := h.another hdesc
    -- before CURRENT is switched, whatever the new manifest holds is not read
    have hbefore : ∀ f : LogFile (VersionEdit K),
        (d.setManifest vs.manifestFileNumber f).Recorded cfg := by
      intro f
      refine h.recorded.congr rfl ?_
      intro m hm
      refine Disk.recordsAt_setManifest_of_ne d f ?_
      intro heq
      exact hother (heq ▸ hm)
    have hadd := fun f hf => @recorded_append K V _ _ cfg (d.setCurrent vs.manifestFileNumber)
      (vs.completeEdit edit) vs.manifestFileNumber vs.nextFileNumber f
      [VersionSet.snapshotEdit cfg
        { vs with compactPointer := applyCompactPointers vs.compactPointer edit }]
      rfl hf (recorded_singleton rfl) (by
        intro st hst
        rw [← nil_append [VersionSet.snapshotEdit cfg _]] at hst
        obtain ⟨before, hb, rfl⟩ := replay_append_singleton hst
        injection hb with hb
        rw [← hb]
        exact (Replay.under_start h.manifest).apply (h.snapshotEdit _)) rfl hedit
    refine ⟨⟨hfiles, hlog, h.manifest, ?_, fun hnone => absurd hnone nofun, (hadd _ rfl).1, ?_⟩, ?_⟩
    · exact fun m hm => hm
    · intro m hm
      obtain rfl := Option.some.inj hm
      exact (hadd _ rfl).2
    · simp_all [mem_cons, not_mem_nil, or_false, h.recorded]

theorem Allotted.applyCreations (h : Allotted cfg vs d) {c : Creation K V}
    (hc : c ∈ vs.applyCreations d) : ¬ c.Truncates := by
  unfold VersionSet.applyCreations at hc
  split_ifs at hc with hnone
  · rw [mem_singleton.mp hc]
    exact h.another (isNone_iff_eq_none.mp hnone)
  · exact absurd hc not_mem_nil

theorem Allotted.newTable (h : Allotted cfg vs d) {vs' : VersionSet K}
    (hcur : vs'.current = vs.current) :
    ¬ (Creation.Truncates ⟨vs', d, .table vs.nextFileNumber⟩) := by
  intro ⟨level, f, hf, heq⟩
  dsimp only at hf
  rw [hcur] at hf
  exact (h.files level f hf).ne heq

/-! ## Opening -/

theorem recover_allotted {vs' : VersionSet K} (hd : d.Recorded cfg) (hcur : vs.current = .empty)
    (hptr : vs.compactPointer = fun _ => none)
    (hopen : ∀ m, vs.descriptorLog = some m → d.current = some m)
    (h : vs.recover cfg d = .ok vs') : Allotted cfg vs' d := by
  unfold VersionSet.recover at h
  rw [hptr, hcur] at h
  cases hm : d.current with
  | none =>
    rw [Disk.manifestRecords, hm] at h
    cases h
  | some m =>
    cases hf : d.manifests m with
    | none =>
      rw [Disk.manifestRecords, hm, bind_some, hf] at h
      cases h
    | some file =>
      have hrec : d.recordsAt m = file.records := by
        unfold Disk.recordsAt
        rw [hf]
        rfl
      rw [Disk.manifestRecords, hm, bind_some, hf] at h
      dsimp only [map_some] at h
      split at h
      · cases h
      · rename_i st hst
        split at h
        · cases h
        · cases h
        · cases h
        · rename_i next log s hnext hlog hseq
          have hunder : st.Under m next := by
            refine hd m hm file.records.length st next ?_ hnext
            rw [hrec, take_length]
            exact hst
          injection h with h
          subst h
          refine ⟨?_, (hunder.logNumber log hlog).trans (Nat.lt_succ_self _), Nat.lt_succ_self _, hopen,
            ?_, hd, ?_⟩
          · intro level f hf
            have hlevel : level < kNumLevels := Version.level_lt hf
            dsimp only [Builder.saveTo] at hf
            rw [if_pos hlevel] at hf
            obtain hf | hf := (LevelState.mem_save.mp hf).1
            · exact absurd hf not_mem_nil
            · exact (hunder.files level f hf).trans (Nat.lt_succ_self _)
          · grind [Option.some.inj, lt_irrefl, hunder.manifest]
          · intro k hk st' hst'
            obtain rfl := Option.some.inj (hm.symm.trans hk)
            rw [hrec] at hst'
            have hsame : st' = st := Except.ok.inj (hst'.symm.trans hst)
            rw [hsame]
            exact hunder.mono (Nat.le_succ _)

theorem init_allotted (hnone : d.current = none) : Allotted cfg VersionSet.init d := by
  refine ⟨fun _ _ hf => absurd hf not_mem_nil, Nat.succ_pos 1, Nat.succ_pos 1,
    fun _ hm => absurd hm nofun, ?_, ?_, ?_⟩
  · rw [hnone]
    exact fun _ => nofun
  · intro m hm
    rw [hnone] at hm
    cases hm
  · intro m hm
    rw [hnone] at hm
    cases hm

theorem createIfMissing_recorded (hd : d.Recorded cfg) :
    (createIfMissing cfg d).disk.Recorded cfg ∧
      (∀ x ∈ (createIfMissing cfg d).passed, x.Recorded cfg) ∧
      ∀ vs', (createIfMissing cfg d).versions.recover cfg (createIfMissing cfg d).disk = .ok vs' →
        Allotted cfg vs' (createIfMissing cfg d).disk := by
  unfold createIfMissing
  cases hcur : d.current with
  | none =>
    have hedit : (({} : VersionEdit K)).Under (VersionSet.init (K := K)).nextFileNumber :=
      ⟨fun _ hp => absurd hp not_mem_nil, fun _ hn => absurd hn nofun⟩
    obtain ⟨hdone, hpassed⟩ := logAndApply_allotted (init_allotted hcur) hedit
    have hempty : (VersionSet.init.logAndApply cfg d {}).versions.current = Version.empty := by
      rw [logAndApply_versions]
      exact Version.applyEdit_eq_self (fun _ => List.Pairwise.nil) rfl rfl
    have hptr : (VersionSet.init.logAndApply cfg d {}).versions.compactPointer = fun _ => none := by
      rw [logAndApply_versions]
      rfl
    exact ⟨hdone.recorded, hpassed, fun vs' h =>
      recover_allotted hdone.recorded hempty hptr hdone.opened h⟩
  | some m =>
    refine ⟨hd, fun _ hx => absurd hx not_mem_nil, fun vs' h => ?_⟩
    exact recover_allotted hd rfl rfl (fun m (hm : none = some m) => absurd hm nofun) h

omit [Inhabited K] in
theorem buildTableOn_frame [Inhabited V] (cfg : Config K V) (d : Disk K V) (number : Nat)
    (mem : MemTable K V) {x : Disk K V}
    (hx : x ∈ (buildTableOn cfg d number mem).1 ∨ x = (buildTableOn cfg d number mem).2) :
    x.current = d.current ∧ x.manifests = d.manifests ∧ x.logs = d.logs := by
  unfold buildTableOn at hx
  split_ifs at hx
  · obtain hx | rfl := hx
    · exact absurd hx not_mem_nil
    · exact ⟨rfl, rfl, rfl⟩
  · obtain hx | rfl := hx
    · rw [mem_singleton.mp hx]
      exact ⟨rfl, rfl, rfl⟩
    · exact ⟨rfl, rfl, rfl⟩

/-- While `Recover` reads the logs of `logs`. -/
structure Allotting (cfg : Config K V) (logs : LogDir K V) (st : Recovering K V) : Prop where
  allotted : Allotted cfg st.versions st.disk
  edit : st.edit.Under st.versions.nextFileNumber
  passed : ∀ x ∈ st.passed, x.Recorded cfg
  logs : st.disk.logs = logs

section Logs

variable [Inhabited V] {logs : LogDir K V} {st : Recovering K V}

theorem Allotting.recoverLogFile (h : Allotting cfg logs st) (n : Nat) :
    Allotting cfg logs (recoverLogFile cfg st n) := by
  unfold LevelDB.recoverLogFile
  split
  · exact h
  · dsimp only
    split_ifs
    · rename_i file _ _
      generalize file.records.foldl (fun (mem : MemTable K V) b => mem.addAll b.entries) [] = mem
      have hframe := @buildTableOn_frame K V _ _ cfg st.disk st.versions.nextFileNumber mem
      obtain ⟨hcur, hman, hlogs⟩ := hframe (Or.inr rfl)
      rw [VersionSet.markFileNumberUsed_eq]
      dsimp only
      rw [max_self]
      refine ⟨h.allotted.congr (Nat.le_succ _) _ hcur hman, ⟨?_, ?_⟩, ?_, hlogs.trans h.logs⟩
      · intro p hp
        obtain hp | hp := mem_append.mp hp
        · exact (h.edit.files p hp).trans (Nat.lt_succ_self _)
        · rw [mem_singleton.mp hp]
          exact Nat.lt_succ_self _
      · exact fun k hk => (h.edit.logNumber k hk).trans (Nat.lt_succ_self _)
      · intro x hx
        obtain hx | hx := mem_append.mp hx
        · exact h.passed x hx
        · obtain rfl | hx := mem_cons.mp hx
          · exact h.allotted.recorded
          · obtain ⟨hxcur, hxman, -⟩ := hframe (Or.inl hx)
            exact (h.allotted.congr (le_refl _) 0 hxcur hxman).recorded
    · exact ⟨h.allotted, h.edit, h.passed, h.logs⟩

theorem Allotting.recoverLogStep (h : Allotting cfg logs st) (n : Nat) :
    Allotting cfg logs (recoverLogStep cfg st n) ∧
      n < (recoverLogStep cfg st n).versions.nextFileNumber := by
  have h := h.recoverLogFile n
  unfold LevelDB.recoverLogStep
  dsimp only
  rw [VersionSet.markFileNumberUsed_eq]
  dsimp only
  refine ⟨⟨h.allotted.congr (le_max_left _ _) _ rfl rfl, ⟨?_, ?_⟩, h.passed, h.logs⟩, ?_⟩
  · exact fun p hp => (h.edit.files p hp).trans_le (le_max_left _ _)
  · exact fun k hk => (h.edit.logNumber k hk).trans_le (le_max_left _ _)
  · exact (Nat.lt_succ_self n).trans_le (le_max_right _ _)

theorem Allotting.foldl (h : Allotting cfg logs st) (numbers : List Nat) :
    Allotting cfg logs (numbers.foldl (LevelDB.recoverLogStep cfg) st) ∧
      st.versions.nextFileNumber ≤
        (numbers.foldl (LevelDB.recoverLogStep cfg) st).versions.nextFileNumber ∧
      (∀ n ∈ numbers,
        n < (numbers.foldl (LevelDB.recoverLogStep cfg) st).versions.nextFileNumber) ∧
      ∀ c ∈ recoverCreations cfg st numbers, ¬ c.Truncates := by
  induction numbers generalizing st with
  | nil =>
    exact ⟨h, le_refl _, fun _ hn => absurd hn not_mem_nil,
      fun _ hc => absurd hc not_mem_nil⟩
  | cons n numbers ih =>
    obtain ⟨hstep, hn⟩ := h.recoverLogStep n
    obtain ⟨hall, hle, hlt, hcalls⟩ := ih hstep
    refine ⟨hall, (next_le_recoverLogStep cfg st n).trans hle, ?_, ?_⟩
    · grind
    · intro c hc
      obtain hc | hc := mem_append.mp hc
      · split at hc
        · exact absurd hc not_mem_nil
        · split_ifs at hc
          · rw [mem_singleton.mp hc]
            exact h.allotted.newTable rfl
          · exact absurd hc not_mem_nil
      · exact hcalls c hc

omit [Inhabited V] in
theorem Allotting.finishRecovery (h : Allotting cfg logs st) :
    Allotted cfg (finishRecovery cfg st).versions (finishRecovery cfg st).disk ∧
      (∀ x ∈ (finishRecovery cfg st).passed, x.Recorded cfg) ∧
      st.versions.nextFileNumber ≤ (finishRecovery cfg st).versions.nextFileNumber ∧
      (finishRecovery cfg st).disk.logs = logs := by
  have hvs : (if st.versions.lastSequence < st.maxSequence then
      { st.versions with lastSequence := st.maxSequence } else st.versions) =
      { st.versions with lastSequence := max st.versions.lastSequence st.maxSequence } := by
    split_ifs with hlt
    · rw [max_eq_right hlt.le]
    · rw [max_eq_left (not_lt.mp hlt)]
  unfold LevelDB.finishRecovery
  rw [hvs]
  dsimp only
  split_ifs
  · have hedit : { st.edit with logNumber := some st.versions.nextFileNumber }.Under
        (st.versions.nextFileNumber + 1) := by
      refine ⟨fun p hp => (h.edit.files p hp).trans (Nat.lt_succ_self _), ?_⟩
      intro n hn
      obtain rfl := Option.some.inj hn
      exact Nat.lt_succ_self _
    obtain ⟨hdone, hpassed⟩ :=
      logAndApply_allotted (h.allotted.congr (Nat.le_succ _) _ rfl rfl) hedit
    refine ⟨hdone, hpassed, ?_, ?_⟩
    · rw [logAndApply_versions]
      exact Nat.le_succ _
    · rw [logAndApply_logs]
      exact h.logs
  · exact ⟨h.allotted.congr (le_refl _) _ rfl rfl, fun _ hx => absurd hx not_mem_nil,
      le_refl _, h.logs⟩

end Logs

def LogsUnder (vs : VersionSet K) (d : Disk K V) : Prop :=
  ∀ n ∈ d.logs.keys, n < vs.nextFileNumber

omit [Inhabited K] in
theorem LogsUnder.newLog (h : LogsUnder vs d) :
    ¬ (Creation.Truncates ⟨vs, d, .log vs.nextFileNumber⟩) :=
  fun hlog => lt_irrefl _ (h _ hlog.1)

omit [Inhabited K] in
theorem LogsUnder.insert (h : LogsUnder vs d) {n next : Nat} (hn : n < next)
    (hle : vs.nextFileNumber ≤ next) (f : LogFile (WriteBatch K V)) :
    ∀ k ∈ (d.logs.insert n f).keys, k < next := by
  intro k hk
  obtain rfl | hk := (AList.mem_insert _).mp hk
  · exact hn
  · exact (h k hk).trans_le hle

variable [Inhabited V]

structure Db.Allotted (cfg : Config K V) (s : Db K V) : Prop where
  numbers : LevelDB.Allotted cfg s.versions s.disk
  logs : LogsUnder s.versions s.disk
  logfile : s.logfileNumber < s.versions.nextFileNumber
  job : ∀ j, s.job = some j → j.number < s.versions.nextFileNumber

theorem recoverLogs_allotting (h : Allotted cfg vs d) :
    Allotting cfg d.logs (recoverLogs cfg d vs) ∧
      LogsUnder (recoverLogs cfg d vs).versions (recoverLogs cfg d vs).disk ∧
      ∀ c ∈ recoverCreations cfg ⟨[], d, vs, {}, false, 0⟩
        (liveLogs d.logs vs.logNumber vs.prevLogNumber), ¬ c.Truncates := by
  have hstart : Allotting cfg d.logs ⟨[], d, vs, {}, false, 0⟩ :=
    ⟨h, ⟨fun _ hp => absurd hp not_mem_nil, fun _ hn => absurd hn nofun⟩,
      fun _ hx => absurd hx not_mem_nil, rfl⟩
  obtain ⟨hall, hle, hlt, hcalls⟩ := hstart.foldl (liveLogs d.logs vs.logNumber vs.prevLogNumber)
  refine ⟨hall, ?_, hcalls⟩
  intro n hn
  have hn : n ∈ d.logs.keys := hall.logs ▸ hn
  by_cases hlog : vs.logNumber ≤ n
  · refine hlt n ?_
    unfold liveLogs
    rw [mem_insertionSort, mem_filter]
    exact ⟨hn, by simp [hlog]⟩
  · exact (not_le.mp hlog).trans (h.logNumber.trans_le hle)

theorem openDb_allotted (hd : d.Recorded cfg) :
    (∀ x ∈ (openDb cfg d).1, x.Recorded cfg) ∧ (∀ s, (openDb cfg d).2 = .ok s → s.Allotted cfg) ∧
      ∀ c ∈ openCreations cfg d, ¬ c.Truncates := by
  obtain ⟨hdisk, hpassed, hrecover⟩ := createIfMissing_recorded hd
  have hfirst : ∀ c ∈ (if d.current.isNone then VersionSet.init.applyCreations d else []),
      ¬ c.Truncates := by
    intro c hc
    split_ifs at hc with hnone
    · have hinit : Allotted cfg VersionSet.init d :=
        init_allotted (isNone_iff_eq_none.mp hnone)
      exact hinit.applyCreations hc
    · exact absurd hc not_mem_nil
  unfold openDb openCreations
  dsimp only
  cases hvs : (createIfMissing cfg d).versions.recover cfg (createIfMissing cfg d).disk with
  | error e =>
    grind
  | ok vs =>
    obtain ⟨hlogs, hunder, hcalls⟩ := recoverLogs_allotting (hrecover vs hvs)
    dsimp only
    generalize recoverLogs cfg (createIfMissing cfg d).disk vs = st at hlogs hunder ⊢
    obtain ⟨hdone, hdonePassed, hle, hsame⟩ := hlogs.finishRecovery
    have hdoneUnder : LogsUnder (finishRecovery cfg st).versions (finishRecovery cfg st).disk := by
      intro n hn
      rw [hsame, ← hlogs.logs] at hn
      exact (hunder n hn).trans_le hle
    refine ⟨?_, ?_, ?_⟩
    · intro x hx
      simp only [mem_append, mem_cons, not_mem_nil, or_false] at hx
      obtain (((hx | hx) | rfl | hx) | rfl | rfl) := hx
      · exact hpassed x hx
      · exact hlogs.passed x hx
      · exact hlogs.allotted.recorded
      · exact hdonePassed x hx
      · exact hdone.recorded
      · exact hdone.recorded
    · intro s hs
      obtain rfl := Except.ok.inj hs
      exact ⟨hdone.congr (Nat.le_succ _) _ rfl rfl,
        hdoneUnder.insert (Nat.lt_succ_self _) (Nat.le_succ _) _, Nat.lt_succ_self _,
        fun j hj => absurd hj nofun⟩
    · intro c hc
      simp only [mem_append, mem_singleton] at hc
      obtain hc | (hc | hc) | rfl := hc
      · exact hfirst c hc
      · exact hcalls c hc
      · unfold finishCreations at hc
        split_ifs at hc
        · exact hlogs.allotted.applyCreations hc
        · exact absurd hc not_mem_nil
      · exact hdoneUnder.newLog

/-! ## Steps and runs -/

namespace Db.Allotted

variable {s s' : Db K V} {allows : Output K V → Prop} {passed : List (Disk K V)}

omit [Inhabited V] in
theorem logAndApply (h : s.Allotted cfg) {next : Nat} (hle : s.versions.nextFileNumber ≤ next)
    (hcur : d.current = s.disk.current) (hman : d.manifests = s.disk.manifests)
    (hlogs : d.logs = s.disk.logs) (he : edit.Under next) {job : Option (Job K)}
    (hjob : ∀ j, job = some j → s.job = some j) {imm : Option (MemTable K V)}
    {done : Applied K V}
    (hdone : done = { s.versions with nextFileNumber := next }.logAndApply cfg d edit) :
    { s with disk := done.disk, versions := done.versions, imm := imm, job := job }.Allotted cfg ∧
      ∀ x ∈ done.passed, x.Recorded cfg := by
  subst hdone
  obtain ⟨hnumbers, hpassed⟩ :=
    logAndApply_allotted (h.numbers.congr hle s.versions.lastSequence hcur hman) he
  have hnext : ({ s.versions with nextFileNumber := next }.logAndApply cfg d
      edit).versions.nextFileNumber = next := by rw [logAndApply_versions]
  refine ⟨⟨hnumbers, ?_, ?_, ?_⟩, hpassed⟩
  · intro n hn
    dsimp only at hn ⊢
    rw [logAndApply_logs, hlogs] at hn
    rw [hnext]
    exact (h.logs n hn).trans_le hle
  · dsimp only
    rw [hnext]
    exact h.logfile.trans_le hle
  · intro j hj
    dsimp only
    rw [hnext]
    exact (h.job j (hjob j hj)).trans_le hle

theorem flush (h : s.Allotted cfg) (imm : MemTable K V) :
    (s.flush cfg imm).2.Allotted cfg ∧ ∀ x ∈ (s.flush cfg imm).1, x.Recorded cfg := by
  have hframe := @buildTableOn_frame K V _ _ cfg s.disk s.versions.nextFileNumber imm
  obtain ⟨hcur, hman, hlogs⟩ := hframe (Or.inr rfl)
  have hbuilt : ∀ x ∈ (buildTableOn cfg s.disk s.versions.nextFileNumber imm).1,
      x.Recorded cfg := by
    intro x hx
    obtain ⟨hxcur, hxman, -⟩ := hframe (Or.inl hx)
    exact (h.numbers.congr (le_refl _) 0 hxcur hxman).recorded
  unfold Db.flush
  dsimp only
  split_ifs
  · have hedit : (flushEdit cfg s.versions.current (buildTable cfg s.versions.nextFileNumber imm)
        s.logfileNumber).Under (s.versions.nextFileNumber + 1) := by
      refine ⟨?_, ?_⟩
      · intro p hp
        rw [mem_singleton.mp hp]
        exact Nat.lt_succ_self _
      · intro n hn
        obtain rfl := Option.some.inj hn
        exact h.logfile.trans (Nat.lt_succ_self _)
    obtain ⟨hdone, hpassed⟩ :=
      h.logAndApply (Nat.le_succ _) hcur hman hlogs hedit (fun _ hj => hj) rfl
    refine ⟨hdone, ?_⟩
    intro x hx
    obtain hx | hx := mem_append.mp hx
    · exact hbuilt x hx
    · exact hpassed x hx
  · refine ⟨⟨h.numbers.congr (Nat.le_succ _) _ hcur hman, ?_, h.logfile.trans (Nat.lt_succ_self _),
      fun j hj => (h.job j hj).trans (Nat.lt_succ_self _)⟩, hbuilt⟩
    intro n hn
    dsimp only at hn ⊢
    rw [hlogs] at hn
    exact (h.logs n hn).trans (Nat.lt_succ_self _)

omit [Inhabited V] in
theorem moveFile (h : s.Allotted cfg) {c : Compaction K} (hc : Picked s.versions.current c) :
    (s.moveFile cfg c).2.Allotted cfg ∧ ∀ x ∈ (s.moveFile cfg c).1, x.Recorded cfg := by
  have hedit : c.moveEdit.Under s.versions.nextFileNumber := by
    unfold Compaction.moveEdit
    cases hhead : c.inputs0.head? with
    | none => exact ⟨fun _ hp => absurd hp not_mem_nil, fun _ hn => absurd hn nofun⟩
    | some f =>
      obtain ⟨level, hf⟩ := hc.exists_mem (mem_of_head? hhead)
      refine ⟨?_, fun _ hn => absurd hn nofun⟩
      intro p hp
      rw [mem_singleton.mp hp]
      exact h.numbers.files level f hf
  exact h.logAndApply (le_refl _) rfl rfl rfl hedit (fun _ hj => hj) rfl

omit [Inhabited V] in
theorem installCompaction (h : s.Allotted cfg) (c : Compaction K) {output : Output K V}
    (hout : ∀ p ∈ output, p.1.number < s.versions.nextFileNumber) :
    (s.installCompaction cfg c output).2.Allotted cfg ∧
      ∀ x ∈ (s.installCompaction cfg c output).1, x.Recorded cfg := by
  have hedit : (compactionEdit c (output.map Prod.fst)).Under s.versions.nextFileNumber := by
    refine ⟨?_, ?_⟩
    · simp_all [compactionEdit_newFiles, List.mem_map, map_eq_some_iff, mem_toList]
    · intro n hn
      rw [compactionEdit_eq] at hn
      cases hn
  have hd : ∀ {α : Type} (field : Disk K V → α), (∀ n t, field (s.disk.finishTable n t) = field s.disk) →
      field (output.elim s.disk fun p => s.disk.finishTable p.1.number (cfg.writeTable p.2)) =
        field s.disk := by
    intro α field hfield
    cases output with
    | none => rfl
    | some p => exact hfield _ _
  exact h.logAndApply (le_refl _) (hd _ fun _ _ => rfl) (hd _ fun _ _ => rfl) (hd _ fun _ _ => rfl)
    hedit (fun j (hj : none = some j) => absurd hj nofun) rfl

theorem work (h : s.Allotted cfg) (hwork : Work cfg allows s passed s') :
    s'.Allotted cfg ∧ ∀ x ∈ passed, x.Recorded cfg := by
  cases hwork with
  | switchMemTable hpending himm =>
    refine ⟨⟨h.numbers.congr (Nat.le_succ _) _ rfl rfl,
      h.logs.insert (Nat.lt_succ_self _) (Nat.le_succ _) _, Nat.lt_succ_self _,
      fun j hj => (h.job j hj).trans (Nat.lt_succ_self _)⟩, fun _ hx => absurd hx not_mem_nil⟩
  | flush himm hjob => exact h.flush _
  | moveFile hjob hc htrivial => exact h.moveFile hc
  | compactNothing hjob hc hinput hallows =>
    exact h.installCompaction _ fun p hp => absurd hp nofun
  | startCompaction hjob hc hinput =>
    refine ⟨⟨h.numbers.congr (Nat.le_succ _) _ rfl rfl,
      fun n hn => (h.logs n hn).trans (Nat.lt_succ_self _), h.logfile.trans (Nat.lt_succ_self _),
      ?_⟩, fun _ hx => absurd hx not_mem_nil⟩
    intro j hj
    obtain rfl := Option.some.inj hj
    exact Nat.lt_succ_self _
  | finishCompaction hjob hwork hallows =>
    refine h.installCompaction _ ?_
    intro p hp
    rw [doCompactionWork_number hwork p hp]
    exact h.job _ hjob
  | abandonCompaction hjob =>
    exact ⟨⟨h.numbers, h.logs, h.logfile, fun j hj => absurd hj nofun⟩,
      fun _ hx => absurd hx not_mem_nil⟩

end Db.Allotted

def State.Allotted (cfg : Config K V) : State K V → Prop
  | .opened s => s.Allotted cfg
  | .closed d => d.Recorded cfg

theorem Step.allotted {allows : Output K V → Prop} {st st' : State K V} {e : Event K V}
    (hstep : Step cfg allows st e st') (h : st.Allotted cfg) : st'.Allotted cfg := by
  cases hstep with
  | write hpending hfits =>
    exact ⟨h.numbers.congr (le_refl _) _ rfl rfl, h.logs.insert h.logfile (le_refl _) _, h.logfile,
      h.job⟩
  | acknowledge hpending =>
    exact ⟨h.numbers.congr (le_refl _) _ rfl rfl, h.logs.insert h.logfile (le_refl _) _, h.logfile,
      h.job⟩
  | work hwork => exact (h.work hwork).1
  | crash hcut => exact h.numbers.recorded.cut hcut
  | crashInWork hwork hx hcut => exact ((h.work hwork).2 _ hx).cut hcut
  | reopen hopen => exact (openDb_allotted h).2.1 _ hopen
  | crashInOpen hx hcut => exact ((openDb_allotted h).1 _ hx).cut hcut

theorem Run.allotted {allows : Output K V → Prop} {events : List (Event K V)} {st : State K V}
    (h : Run cfg allows events st) : st.Allotted cfg := by
  refine h.invariant (I := fun _ st => st.Allotted cfg) ?_ fun _ ih hstep => hstep.allotted ih
  intro m hm
  cases hm

theorem State.Allotted.creates {st : State K V} {c : Creation K V} (h : st.Allotted cfg)
    (hc : Creates cfg st c) : ¬ c.Truncates := by
  cases hc with
  | switchMemTable himm => exact h.logs.newLog
  | @flush s imm _ himm hjob hc =>
    obtain rfl | hc := mem_cons.mp hc
    · exact h.numbers.newTable rfl
    · split_ifs at hc
      · obtain ⟨hcur, hman, -⟩ :=
          buildTableOn_frame cfg s.disk s.versions.nextFileNumber imm (Or.inr rfl)
        have hnext := h.numbers.congr (Nat.le_succ _) s.versions.lastSequence hcur hman
        exact hnext.applyCreations hc
      · exact absurd hc not_mem_nil
  | moveFile hjob hc => exact h.numbers.applyCreations hc
  | startCompaction hjob => exact h.numbers.newTable rfl
  | @installCompaction s output _ hc =>
    cases output with
    | none => exact h.numbers.applyCreations hc
    | some p =>
      have hsame : LevelDB.Allotted cfg s.versions
          (s.disk.finishTable p.1.number (cfg.writeTable p.2)) :=
        h.numbers.congr (le_refl _) s.versions.lastSequence rfl rfl
      exact hsame.applyCreations hc
  | reopen hc => exact (openDb_allotted h).2.2 _ hc

/-- In every run over any number of sessions, no call of `NewWritableFile` truncates a table of
    the current version, a log that recovery would still read, or the manifest that CURRENT
    names. -/
theorem newFile_not_live {allows : Output K V → Prop} {events : List (Event K V)} {st : State K V}
    {c : Creation K V} (h : Run cfg allows events st) (hc : Creates cfg st c) : ¬ c.Truncates :=
  h.allotted.creates hc

theorem newFile_not_live_sample :
    Run sampleConfig (fun _ => True) sampleEvents (.opened sampleFlushed) ∧
      ¬ (Creation.Truncates ⟨sampleFlushed.versions, sampleFlushed.disk,
        .table sampleFlushed.versions.nextFileNumber⟩) :=
  ⟨sampleFlushed_run _, newFile_not_live (sampleFlushed_run (fun _ => True)) (.startCompaction rfl)⟩

end Allotted

end LevelDB
