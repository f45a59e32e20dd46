/-
  Disks from which the database can be recovered, and what `LogAndApply` does to them.

  A `Checkpoint` is what a manifest leads `VersionSet::Recover` to, together with the number
  of operations that its tables stand for. A crash may cut the manifest, so that a disk has
  several checkpoints; it is `Sound` if every cut of its manifest restores one of them, and
  if the logs cover the rest of the history for all of them.
-/
import LevelDB.Db.Covers

namespace LevelDB

open List

variable {K V : Type} [LinearOrder K]

/-! ## What a manifest restores -/

/-- What recovery starts from: a version, the numbers recorded with it, and how many
    operations the tables of the version stand for. -/
structure Checkpoint (K : Type) where
  version : Version K
  next : Nat
  last : Nat
  log : Nat
  base : Nat

/-- The variables of `Recover` before the first record. -/
def Replay.start : Replay K := ⟨.empty, fun _ => none, none, none, none, none⟩

section Restore

variable [Inhabited K]

/-- The variables of `Recover` after the last record. -/
structure Restored (st : Replay K) (c : Checkpoint K) : Prop where
  follows : Follows st.builder c.version c.next
  nextFile : st.nextFile = some c.next
  lastSequence : st.lastSequence = some c.last
  logNumber : st.logNumber = some c.log
  prevLogNumber : st.prevLogNumber = some 0
  pointers : ∀ level k, st.compactPointer level = some k → k ≠ .cleared

/-- The records lead to the checkpoint, and none of them has recorded a larger next file
    number. -/
structure Restores (cfg : Config K V) (records : List (VersionEdit K)) (c : Checkpoint K) :
    Prop where
  replays : ∃ st, replay cfg records .start = .ok st ∧ Restored st c
  next_max : ∀ e ∈ records, ∀ n, e.nextFileNumber = some n → n ≤ c.next

/-- The edit, as `LogAndApply` writes it, leads from one checkpoint to another. -/
structure Advances (cfg : Config K V) (e : VersionEdit K) (c c' : Checkpoint K) : Prop where
  accepted : e.Accepted cfg
  follows : ∀ b, Follows b c.version c.next → Follows (b.apply e) c'.version c'.next
  nextFile : e.nextFileNumber = some c'.next
  lastSequence : e.lastSequence = some c'.last
  logNumber : e.logNumber = some c'.log
  prevLogNumber : e.prevLogNumber = some 0
  next_le : c.next ≤ c'.next

theorem applyCompactPointers_ne_cleared {pointers : Nat → Option (InternalKey K)}
    (h : ∀ level k, pointers level = some k → k ≠ .cleared) (edit : VersionEdit K) :
    ∀ level k, applyCompactPointers pointers edit level = some k → k ≠ .cleared := by
  unfold applyCompactPointers
  generalize edit.compactPointers = l
  induction l generalizing pointers with
  | nil => exact h
  | cons p l ih =>
    apply ih
    intro level k hk
    dsimp only at hk
    rw [Function.update_apply] at hk
    split_ifs at hk with hl hc
    · obtain rfl := Option.some.inj hk
      exact hc
    · exact h level k hk

variable {cfg : Config K V} {records : List (VersionEdit K)} {e : VersionEdit K}
  {c c' : Checkpoint K}

theorem Restored.apply {st : Replay K} (hf : Follows (st.builder.apply e) c'.version c'.next)
    (hp : ∀ level k, st.compactPointer level = some k → k ≠ .cleared) (h : Advances cfg e c c') :
    Restored (st.apply e) c' where
  follows := hf
  nextFile := by rw [Replay.apply, h.nextFile]; rfl
  lastSequence := by rw [Replay.apply, h.lastSequence]; rfl
  logNumber := by rw [Replay.apply, h.logNumber]; rfl
  prevLogNumber := by rw [Replay.apply, h.prevLogNumber]; rfl
  pointers := applyCompactPointers_ne_cleared hp e

theorem Restores.append (h : Restores cfg records c) (he : Advances cfg e c c') :
    Restores cfg (records ++ [e]) c' := by
  obtain ⟨st, hst, hr⟩ := h.replays
  refine ⟨⟨st.apply e, ?_, .apply (he.follows _ hr.follows) hr.pointers he⟩, ?_⟩
  · rw [replay_append hst, replay_cons_of_accepted he.accepted]
    rfl
  · intro x hx n hn
    obtain hx | hx := mem_append.mp hx
    · exact (h.next_max x hx n hn).trans he.next_le
    · rw [mem_singleton.mp hx, he.nextFile] at hn
      exact (Option.some.inj hn).ge

theorem replay_nextFile {st st' : Replay K} (h : replay cfg records st = .ok st') :
    st'.nextFile = st.nextFile ∨ ∃ e ∈ records, e.nextFileNumber = st'.nextFile := by
  induction records generalizing st with
  | nil =>
    injection h with h
    exact Or.inl (by rw [h])
  | cons e records ih =>
    obtain ⟨-, h⟩ := replay_cons_ok h
    obtain heq | ⟨x, hx, heq⟩ := ih h
    · cases hn : e.nextFileNumber with
      | none =>
        left
        rw [heq, Replay.apply, hn]
        rfl
      | some n =>
        right
        refine ⟨e, mem_cons_self, ?_⟩
        rw [heq, Replay.apply, hn]
        rfl
    · exact Or.inr ⟨x, mem_cons_of_mem _ hx, heq⟩

theorem Restores.next_le {n : Nat} (h : Restores cfg records c)
    (h' : Restores cfg (records.take n) c') : c'.next ≤ c.next := by
  obtain ⟨st, hst, hr⟩ := h'.replays
  obtain heq | ⟨e, he, heq⟩ := replay_nextFile hst
  · rw [hr.nextFile] at heq
    cases heq
  · exact h.next_max e (mem_of_mem_take he) _ (heq.trans hr.nextFile)

theorem snapshotEdit_accepted {vs : VersionSet K}
    (hkeys : ∀ level, ∀ f ∈ vs.current.files level, f.smallest ≠ .cleared ∧ f.largest ≠ .cleared)
    (hp : ∀ level k, vs.compactPointer level = some k → k ≠ .cleared) :
    (vs.snapshotEdit cfg).Accepted cfg := by
  refine ⟨VersionEdit.decodeError_eq_none_iff.mpr ⟨?_, ?_, ?_⟩, ?_⟩
  · intro p hmem
    obtain ⟨level, hl, hmap⟩ := mem_filterMap.mp hmem
    obtain ⟨k, hk, rfl⟩ := Option.map_eq_some_iff.mp hmap
    exact ⟨mem_range.mp hl, hp level k hk⟩
  · exact fun p hmem => absurd hmem not_mem_nil
  · intro p hmem
    obtain ⟨level, hl, hmap⟩ := mem_flatMap.mp hmem
    obtain ⟨f, hf, rfl⟩ := List.mem_map.mp hmap
    exact ⟨mem_range.mp hl, hkeys level f hf⟩
  · unfold VersionSet.snapshotEdit
    simp

theorem restores_snapshot {vs : VersionSet K} {store : TableStore K V}
    (hcur : vs.current = c.version) (hlayered : c.version.Layered store)
    (hnum : ∀ level, ∀ f ∈ c.version.files level, f.number < c.next)
    (hacc : (vs.snapshotEdit cfg).Accepted cfg) (he : Advances cfg e c c') :
    Restores cfg [vs.snapshotEdit cfg, e] c' := by
  rw [← hcur] at hlayered hnum
  have hfollows : Follows (Builder.empty.apply (vs.snapshotEdit cfg)) c.version c.next := by
    rw [← hcur]
    exact follows_snapshot hlayered hnum
  refine ⟨⟨(Replay.start.apply (vs.snapshotEdit cfg)).apply e, ?_, ?_⟩, ?_⟩
  · rw [replay_cons_of_accepted hacc, replay_cons_of_accepted he.accepted]
    rfl
  · refine .apply (he.follows _ hfollows) ?_ he
    exact applyCompactPointers_ne_cleared (fun _ _ h => by cases h) _
  · intro x hx n hn
    obtain rfl | hx := mem_cons.mp hx
    · cases hn
    · rw [mem_singleton.mp hx, he.nextFile] at hn
      exact (Option.some.inj hn).ge

end Restore

/-! ## Sound disks -/

section Sound

variable [Inhabited K] [Inhabited V]

/-- The tables of the checkpoint's version hold the first `base` operations. -/
structure Checkpoint.Valid (full : Prop) (store : TableStore K V) (hist pend : List (Op K V))
    (c : Checkpoint K) : Prop where
  holds : Holds full c.version store ((hist ++ pend).take c.base)
  numbers : ∀ level, ∀ f ∈ c.version.files level, f.number < c.next
  base_le : c.base ≤ c.last
  last_le : c.last ≤ max hist.length c.base
  log_lt : c.log < c.next

/-- Every cut of the manifest that CURRENT names restores one of the checkpoints `A`, and the
    logs cover the rest of the history for all pairs of `P`, which has those of `A`. -/
structure Sound (cfg : Config K V) (full : Prop) (d : Disk K V) (hist pend : List (Op K V))
    (m : Nat) (file : LogFile (VersionEdit K)) (A : Set (Checkpoint K)) (P : Set (Nat × Nat)) :
    Prop where
  current : d.current = some m
  manifest : d.manifests m = some file
  restores : ∀ file', file.Cut file' → ∃ c ∈ A, Restores cfg file'.records c
  valid : ∀ c ∈ A, c.Valid full d.store hist pend ∧ m < c.next
  pairs : ∀ c ∈ A, (c.log, c.base) ∈ P
  covers : Covers d.logs hist pend P
  bounded : (hist ++ pend).length ≤ kMaxSequenceNumber

/-- A disk that a crash may leave: of a database that does not exist yet, or a sound one. -/
def Recoverable (cfg : Config K V) (full : Prop) (d : Disk K V) (hist pend : List (Op K V)) :
    Prop :=
  (d.current = none ∧ d.logs.keys = [] ∧ hist = [] ∧ pend = []) ∨
    ∃ m file A P, Sound cfg full d hist pend m file A P

variable {cfg : Config K V} {full : Prop} {d x : Disk K V} {hist pend : List (Op K V)} {m : Nat}
  {file : LogFile (VersionEdit K)} {A : Set (Checkpoint K)} {P : Set (Nat × Nat)}
  {c c' : Checkpoint K}

namespace Checkpoint.Valid

omit [Inhabited K]

theorem congr {store store' : TableStore K V} (h : c.Valid full store hist pend)
    (hstore : ∀ n < c.next, store' n = store n) : c.Valid full store' hist pend :=
  { h with holds := h.holds.congr fun level f hf => hstore f.number (h.numbers level f hf) }

end Checkpoint.Valid

namespace Sound

theorem recoverable (h : Sound cfg full d hist pend m file A P) : Recoverable cfg full d hist pend :=
  Or.inr ⟨m, file, A, P, h⟩

theorem agrees {n : Nat} (h : Sound cfg full d hist pend m file A P) (hx : d.Agrees n x)
    (hn : ∀ c ∈ A, c.next ≤ n) : Sound cfg full x hist pend m file A P where
  current := hx.current.trans h.current
  manifest := (hx.manifest m h.current).trans h.manifest
  restores := h.restores
  valid := fun c hc => ⟨(h.valid c hc).1.congr fun k hk => hx.store_eq (hk.trans_le (hn c hc)),
    (h.valid c hc).2⟩
  pairs := h.pairs
  covers := by
    rw [hx.logs]
    exact h.covers
  bounded := h.bounded

theorem setManifest (h : Sound cfg full d hist pend m file A P) {k : Nat} (hk : k ≠ m)
    (f : LogFile (VersionEdit K)) : Sound cfg full (d.setManifest k f) hist pend m file A P :=
  { h with manifest := (Function.update_of_ne hk.symm _ _).trans h.manifest }

theorem cut (h : Sound cfg full d hist pend m file A P) (hcut : d.Cut x) :
    ∃ file', file.Cut file' ∧ Sound cfg full x hist pend m file' A P := by
  have hm := hcut.manifests m
  rw [h.manifest] at hm
  cases hx : x.manifests m with
  | none =>
    rw [hx] at hm
    cases hm
  | some file' =>
    rw [hx] at hm
    cases hm with
    | some hfile =>
      have hstore : x.store = d.store := by
        unfold Disk.store
        rw [hcut.tables]
      refine ⟨file', hfile, hcut.current.trans h.current, hx, ?_, ?_, h.pairs,
        h.covers.cut hcut.logs, h.bounded⟩
      · exact fun file'' hfile' => h.restores file'' (hfile.trans hfile')
      · rw [hstore]
        exact h.valid

theorem restrict (h : Sound cfg full d hist pend m file A P) (hr : Restores cfg file.records c)
    (hc : c ∈ A) :
    ∃ A', c ∈ A' ∧ (∀ x ∈ A', x.next ≤ c.next) ∧
      Sound cfg full d hist pend m file A' {p | ∃ x ∈ A', p = (x.log, x.base)} := by
  refine ⟨{x ∈ A | x.next ≤ c.next}, ⟨hc, le_refl _⟩, fun x hx => hx.2, h.current, h.manifest, ?_,
    fun x hx => h.valid x hx.1, fun x hx => ⟨x, hx, rfl⟩, ?_, h.bounded⟩
  · intro file' hfile
    obtain ⟨x, hx, hrx⟩ := h.restores file' hfile
    obtain ⟨-, n, -, hrec⟩ := hfile
    refine ⟨x, ⟨hx, ?_⟩, hrx⟩
    rw [hrec] at hrx
    exact hr.next_le hrx
  · refine h.covers.mono ?_
    intro p ⟨x, hx, hp⟩
    rw [hp]
    exact h.pairs x hx.1

theorem appendEdit (h : Sound cfg full d hist pend m file A P)
    (hr : Restores cfg file.records c) {e : VersionEdit K} (he : Advances cfg e c c')
    (hm : m < c'.next) (hval : c'.Valid full d.store hist pend) (hp : (c'.log, c'.base) ∈ P) :
    Sound cfg full (d.setManifest m (file.append e)) hist pend m (file.append e) (insert c' A) P where
  current := h.current
  manifest := d.manifests_setManifest _ _
  restores := by
    intro file' hfile
    obtain ⟨hd, n, hn, hrec⟩ := hfile
    obtain hle | hgt := le_or_gt n file.records.length
    · obtain ⟨x, hx, hrx⟩ := h.restores file' ⟨hd, n, hn, by
        rw [hrec, LogFile.append_records, take_append_of_le_length hle]⟩
      exact ⟨x, Set.mem_insert_of_mem _ hx, hrx⟩
    · refine ⟨c', Set.mem_insert _ _, ?_⟩
      rw [hrec, LogFile.append_records,
        take_of_length_le (by simpa using Nat.succ_le_of_lt hgt)]
      exact hr.append he
  valid := by
    intro x hx
    obtain rfl | hx := Set.mem_insert_iff.mp hx
    · exact ⟨hval, hm⟩
    · exact h.valid x hx
  pairs := by
    intro x hx
    obtain rfl | hx := Set.mem_insert_iff.mp hx
    · exact hp
    · exact h.pairs x hx
  covers := h.covers
  bounded := h.bounded

end Sound

theorem sound_of_synced (hcur : d.current = some m) (hman : d.manifests m = some file)
    (hsync : file.Synced) (hr : Restores cfg file.records c) (hm : m < c.next)
    (hval : c.Valid full d.store hist pend) (hp : (c.log, c.base) ∈ P)
    (hcov : Covers d.logs hist pend P) (hb : (hist ++ pend).length ≤ kMaxSequenceNumber) :
    Sound cfg full d hist pend m file {c} P where
  current := hcur
  manifest := hman
  restores := by
    intro file' hfile
    refine ⟨c, rfl, ?_⟩
    rw [hfile.records_eq hsync]
    exact hr
  valid := by
    intro x hx
    rw [Set.mem_singleton_iff.mp hx]
    exact ⟨hval, hm⟩
  pairs := by
    intro x hx
    rw [Set.mem_singleton_iff.mp hx]
    exact hp
  covers := hcov
  bounded := hb

/-! ## LogAndApply -/

/-- The manifest that is open is the one CURRENT names, or the next one has another number. -/
def Attached (vs : VersionSet K) (m : Nat) : Prop :=
  vs.descriptorLog = some m ∨
    vs.descriptorLog = none ∧ vs.manifestFileNumber ≠ m ∧ vs.manifestFileNumber < vs.nextFileNumber

/-- What the version set holds after `LogAndApply`, apart from the manifest. -/
structure Installed (vs vs' : VersionSet K) (c' : Checkpoint K) : Prop where
  current : vs'.current = c'.version
  logNumber : vs'.logNumber = c'.log
  nextFileNumber : vs'.nextFileNumber = vs.nextFileNumber
  lastSequence : vs'.lastSequence = vs.lastSequence
  prevLogNumber : vs'.prevLogNumber = 0
  pointers : ∀ level k, vs'.compactPointer level = some k → k ≠ .cleared

variable {vs : VersionSet K} {edit : VersionEdit K}

omit [Inhabited V] in
theorem logAndApply_installed (d : Disk K V) (hver : c'.version = vs.current.applyEdit edit)
    (he : Advances cfg (vs.completeEdit edit) c c')
    (hptr : ∀ level k, vs.compactPointer level = some k → k ≠ .cleared) :
    Installed vs (vs.logAndApply cfg d edit).versions c' := by
  have hlog := he.logNumber
  have hprev := he.prevLogNumber
  have happly : vs.current.applyEdit (vs.completeEdit edit) = c'.version := by
    rw [hver]
    rfl
  unfold VersionSet.logAndApply
  dsimp only
  cases vs.descriptorLog with
  | some n =>
    exact ⟨happly, by rw [hlog]; rfl, rfl, rfl, by rw [hprev]; rfl,
      applyCompactPointers_ne_cleared hptr _⟩
  | none =>
    exact ⟨happly, by rw [hlog]; rfl, rfl, rfl, by rw [hprev]; rfl,
      applyCompactPointers_ne_cleared hptr _⟩

omit [Inhabited V] in
theorem logAndApply_logs (cfg : Config K V) (vs : VersionSet K) (d : Disk K V)
    (edit : VersionEdit K) : (vs.logAndApply cfg d edit).disk.logs = d.logs := by
  unfold VersionSet.logAndApply
  dsimp only
  cases vs.descriptorLog with
  | some n => rfl
  | none => rfl

omit [Inhabited V] in
theorem advances_completeEdit (hdec : edit.decodeError = none) (hcmp : edit.comparator = none)
    (hprev : edit.prevLogNumber.getD vs.prevLogNumber = 0) (hnext : c'.next = vs.nextFileNumber)
    (hlast : c'.last = vs.lastSequence) (hlog : c'.log = edit.logNumber.getD vs.logNumber)
    (hfollows : ∀ b, Follows b c.version c.next → Follows (b.apply edit) c'.version c'.next)
    (hle : c.next ≤ vs.nextFileNumber) : Advances cfg (vs.completeEdit edit) c c' where
  accepted := ⟨hdec, by
    unfold VersionSet.completeEdit
    rw [hcmp]
    rfl⟩
  follows := hfollows
  nextFile := congrArg some hnext.symm
  lastSequence := congrArg some hlast.symm
  logNumber := congrArg some hlog.symm
  prevLogNumber := congrArg some hprev
  next_le := by
    rw [hnext]
    exact hle

theorem logAndApply_create {store : TableStore K V} {H : List (Op K V)} (d : Disk K V)
    (hclosed : vs.descriptorLog = none)
    (hholds : Holds full c.version store H)
    (hnum : ∀ level, ∀ f ∈ c.version.files level, f.number < c.next)
    (hcur : vs.current = c.version) (he : Advances cfg (vs.completeEdit edit) c c')
    (hptr : ∀ level k, vs.compactPointer level = some k → k ≠ .cleared) :
    (∀ x ∈ (vs.logAndApply cfg d edit).passed,
        x = d ∨ ∃ f, x = d.setManifest vs.manifestFileNumber f) ∧
      (vs.logAndApply cfg d edit).versions.descriptorLog = some vs.manifestFileNumber ∧
      ∃ file', file'.Synced ∧ Restores cfg file'.records c' ∧
        (vs.logAndApply cfg d edit).disk =
          (d.setManifest vs.manifestFileNumber file').setCurrent vs.manifestFileNumber := by
  unfold VersionSet.logAndApply
  dsimp only
  generalize hvs : { vs with
    compactPointer := applyCompactPointers vs.compactPointer (vs.completeEdit edit) } = vs'
  rw [hclosed]
  dsimp only
  have hcur' : vs'.current = c.version := by rw [← hvs]; exact hcur
  have hacc : (vs'.snapshotEdit cfg).Accepted cfg := by
    apply snapshotEdit_accepted
    · intro level f hf
      rw [hcur'] at hf
      exact hholds.keys_ne_cleared hf
    · rw [← hvs]
      exact applyCompactPointers_ne_cleared hptr _
  refine ⟨?_, rfl,
    ((LogFile.empty.append (vs'.snapshotEdit cfg)).append (vs.completeEdit edit)).sync,
    LogFile.sync_synced _, restores_snapshot hcur' hholds.layered hnum hacc he, rfl⟩
  intro x hx
  simp only [mem_cons, not_mem_nil, or_false] at hx
  obtain rfl | rfl | rfl | rfl | rfl := hx
  · exact Or.inl rfl
  · exact Or.inr ⟨_, rfl⟩
  · exact Or.inr ⟨_, rfl⟩
  · exact Or.inr ⟨_, rfl⟩
  · exact Or.inr ⟨_, rfl⟩

/-- **LogAndApply.** A crash at any point leaves a recoverable disk; at the end the new
    checkpoint is the only one. -/
theorem logAndApply_sound (h : Sound cfg full d hist pend m file A P)
    (hr : Restores cfg file.records c) (hc : c ∈ A) (hcur : vs.current = c.version)
    (hatt : Attached vs m) (hnext : c'.next = vs.nextFileNumber)
    (he : Advances cfg (vs.completeEdit edit) c c')
    (hptr : ∀ level k, vs.compactPointer level = some k → k ≠ .cleared)
    (hval : c'.Valid full d.store hist pend) (hp : (c'.log, c'.base) ∈ P) :
    (∀ x ∈ (vs.logAndApply cfg d edit).passed, Recoverable cfg full x hist pend) ∧
      ∃ m' file', Sound cfg full (vs.logAndApply cfg d edit).disk hist pend m' file' {c'} P ∧
        Restores cfg file'.records c' ∧
        (vs.logAndApply cfg d edit).versions.descriptorLog = some m' := by
  have hm : m < c'.next := (h.valid c hc).2.trans_le he.next_le
  obtain hopen | ⟨hclosed, hne, hlt⟩ := hatt
  · unfold VersionSet.logAndApply
    dsimp only
    rw [hopen]
    dsimp only
    rw [h.manifest, Option.getD_some]
    refine ⟨?_, m, (file.append (vs.completeEdit edit)).sync, ?_, hr.append he, rfl⟩
    · intro x hx
      obtain rfl | hx := mem_cons.mp hx
      · exact h.recoverable
      · rw [mem_singleton.mp hx]
        exact (h.appendEdit hr he hm hval hp).recoverable
    · exact sound_of_synced h.current (d.manifests_setManifest _ _) (LogFile.sync_synced _)
        (hr.append he) hm hval hp h.covers h.bounded
  · have hvalid := (h.valid c hc).1
    obtain ⟨hpassed, hdesc, file', hsync, hnew, hdisk⟩ :=
      logAndApply_create d hclosed hvalid.holds hvalid.numbers hcur he hptr
    refine ⟨?_, vs.manifestFileNumber, file', ?_, hnew, hdesc⟩
    · -- until CURRENT is switched the old manifest counts
      intro x hx
      obtain rfl | ⟨f, rfl⟩ := hpassed x hx
      · exact h.recoverable
      · exact (h.setManifest hne f).recoverable
    · rw [hdisk]
      exact sound_of_synced rfl (d.manifests_setManifest _ _) hsync hnew
        (by rw [hnext]; exact hlt) hval hp h.covers h.bounded

end Sound

end LevelDB
