/-
  Opening a database (`DB::Open`) from what a crash has left.

  The steps of `Open` each have their own invariant: the first manifest (`Started`), the
  version set that the manifest restores (`Reading`), and the manifest that records what the
  logs held (`Resolved`).
-/
import LevelDB.Db.Session

namespace LevelDB

open List

variable {K V : Type} [LinearOrder K] [Inhabited K] [Inhabited V]

variable {cfg : Config K V} {full : Prop} {d : Disk K V} {hist pend H : List (Op K V)} {m : Nat}
  {file : LogFile (VersionEdit K)} {A : Set (Checkpoint K)} {P : Set (Nat × Nat)}
  {c : Checkpoint K} {vs : VersionSet K}

/-! ## The first manifest -/

/-- What `createIfMissing` provides. -/
structure Started (cfg : Config K V) (full : Prop) (a : Applied K V) (hist pend : List (Op K V))
    (m : Nat) (file : LogFile (VersionEdit K)) (A : Set (Checkpoint K)) (P : Set (Nat × Nat)) :
    Prop where
  sound : Sound cfg full a.disk hist pend m file A P
  passed : ∀ x ∈ a.passed, Recoverable cfg full x hist pend
  current : ∀ level, a.versions.current.files level = []
  pointers : a.versions.compactPointer = fun _ => none
  descriptor : a.versions.descriptorLog = none ∨
    a.versions.descriptorLog = some m ∧ a.disk.logs.keys = []

def Checkpoint.zero : Checkpoint K := ⟨.empty, 2, 0, 0, 0⟩

omit [Inhabited K] in
theorem zero_version : (Checkpoint.zero : Checkpoint K).version = Version.empty.applyEdit {} := by
  have hcanon : (Version.empty : Version K).Canonical := fun _ => List.Pairwise.nil
  exact (Version.applyEdit_eq_self hcanon rfl rfl).symm

omit [Inhabited V] in
theorem zero_advances (cfg : Config K V) :
    Advances cfg (VersionSet.init.completeEdit {}) Checkpoint.zero Checkpoint.zero := by
  refine advances_completeEdit ?_ rfl rfl rfl rfl rfl ?_ (le_refl _)
  · simp [VersionEdit.decodeError_eq_none_iff, not_mem_nil]
  · intro b hb
    have hfollows : Follows (b.apply {}) (Version.empty.applyEdit {}) 2 :=
      hb.fresh (le_refl _) nodup_nil fun _ h => absurd h not_mem_nil
    rw [zero_version]
    exact hfollows

theorem createIfMissing_started (h : Recoverable cfg full d hist pend) :
    ∃ m file A P, Started cfg full (createIfMissing cfg d) hist pend m file A P := by
  unfold createIfMissing
  obtain ⟨hcur, hkeys, rfl, rfl⟩ | ⟨m, file, A, P, h⟩ := h
  · rw [hcur]
    dsimp only
    have hempty : Holds full (.empty : Version K) d.store [] := Holds.empty _
    have hptr : ∀ level k, (VersionSet.init : VersionSet K).compactPointer level = some k →
        k ≠ .cleared := fun _ _ h => by cases h
    obtain ⟨hpassed, hdesc, file, hsync, hr, hdisk⟩ := logAndApply_create d rfl hempty
      (fun _ f hf => absurd hf not_mem_nil) rfl (zero_advances cfg) hptr
    have hlogs := logAndApply_logs cfg VersionSet.init d {}
    refine ⟨_, file, {.zero}, {(0, 0)}, ?_, ?_, ?_, rfl, Or.inr ⟨hdesc, by rw [hlogs, hkeys]⟩⟩
    · rw [hdisk]
      refine sound_of_synced rfl (by simp) hsync hr Nat.zero_lt_two ?_ rfl ?_ (Nat.zero_le _)
      · exact ⟨Holds.empty _, fun _ f hf => absurd hf not_mem_nil, le_refl _, le_refl _,
          Nat.zero_lt_two⟩
      · refine Covers.of_keys_lt (H := []) ?_ (Or.inl rfl)
        intro n hn
        have hn' : n ∈ d.logs.keys := hn
        rw [hkeys] at hn'
        exact absurd hn' not_mem_nil
    · intro x hx
      obtain rfl | ⟨f, rfl⟩ := hpassed x hx
      · exact Or.inl ⟨hcur, hkeys, rfl, rfl⟩
      · exact Or.inl ⟨hcur, hkeys, rfl, rfl⟩
    · intro level
      rw [(logAndApply_installed d zero_version (zero_advances cfg) hptr).current]
      rfl
  · rw [h.current]
    exact ⟨m, file, A, P, h, fun _ hx => absurd hx not_mem_nil, fun _ => rfl, rfl, Or.inl rfl⟩

/-! ## Reading the manifest and the logs -/

/-- What `VersionSet::Recover` makes of the checkpoint. -/
structure Reopened (vs : VersionSet K) (c : Checkpoint K) : Prop where
  current : vs.current = c.version
  pointers : ∀ level k, vs.compactPointer level = some k → k ≠ .cleared
  manifestFileNumber : vs.manifestFileNumber = c.next
  nextFileNumber : vs.nextFileNumber = c.next + 1
  lastSequence : vs.lastSequence = c.last
  logNumber : vs.logNumber = c.log
  prevLogNumber : vs.prevLogNumber = 0

omit [Inhabited V] in
theorem recover_reopened {records : List (VersionEdit K)}
    (hrec : d.manifestRecords = some (m, records)) (hr : Restores cfg records c)
    (hcanon : c.version.Canonical) (hcur : ∀ level, vs.current.files level = [])
    (hptr : vs.compactPointer = fun _ => none) :
    ∃ vs', vs.recover cfg d = .ok vs' ∧ Reopened vs' c ∧ vs'.descriptorLog = vs.descriptorLog := by
  obtain ⟨st, hst, h⟩ := hr.replays
  have hreplay : replay cfg records ⟨.empty, vs.compactPointer, none, none, none, none⟩ = .ok st := by
    rw [hptr]
    exact hst
  unfold VersionSet.recover
  rw [hrec]
  dsimp only
  rw [hreplay]
  dsimp only
  rw [h.nextFile, h.logNumber, h.lastSequence, h.prevLogNumber]
  exact ⟨_, rfl, ⟨h.follows.tracks.saveTo_eq hcanon hcur, h.pointers, rfl, rfl, rfl, rfl, rfl⟩, rfl⟩

structure Reading (cfg : Config K V) (full : Prop) (d : Disk K V) (vs : VersionSet K)
    (st : Recovering K V) (hist pend H : List (Op K V)) (m : Nat)
    (file : LogFile (VersionEdit K)) (A : Set (Checkpoint K)) (P : Set (Nat × Nat))
    (c : Checkpoint K) : Prop where
  sound : Sound cfg full d hist pend m file A P
  checkpoint : c ∈ A
  restores : Restores cfg file.records c
  next_le : ∀ x ∈ A, x.next ≤ c.next
  pairs_lt : ∀ p ∈ P, p.1 < c.next
  reopened : Reopened vs c
  outcome : H = hist ∨ H = hist ++ pend
  covered : Covered d.logs c.log c.base H
  recovered : Recovered full c.version d vs c.base st H
  keys_lt : ∀ n ∈ d.logs.keys, n < st.versions.nextFileNumber

theorem Started.reading {a : Applied K V} (h : Started cfg full a hist pend m file A P) :
    ∃ vs, a.versions.recover cfg a.disk = .ok vs ∧
      vs.descriptorLog = a.versions.descriptorLog ∧
      ∃ H A' P' c, Reading cfg full a.disk vs (recoverLogs cfg a.disk vs) hist pend H m file A' P'
        c := by
  obtain ⟨c, hcA, hr⟩ := h.sound.restores file (.refl _)
  obtain ⟨A', hc, hnext, hs⟩ := h.sound.restrict hr hcA
  have hvalid := (hs.valid c hc).1
  have hrec : a.disk.manifestRecords = some (m, file.records) := by
    unfold Disk.manifestRecords
    rw [hs.current, Option.bind_some, hs.manifest]
    rfl
  obtain ⟨vs, hvs, hre, hdesc⟩ :=
    recover_reopened hrec hr hvalid.holds.layered.canonical h.current h.pointers
  obtain ⟨H, hH, hcov⟩ := hs.covers a.disk.logs (.refl _)
  have hcovc := hcov _ (hs.pairs c hc)
  have hlen : (H.take c.base).length = c.base := length_take_of_le hcovc.base_le
  have hholds : Holds full c.version a.disk.store (H.take c.base) := by
    rw [take_of_outcome hH, take_take, min_eq_left hcovc.base_le]
    exact hvalid.holds
  have hnum : ∀ l, ∀ g ∈ c.version.files l, g.number < vs.nextFileNumber := by
    intro l g hg
    rw [hre.nextFileNumber]
    exact (hvalid.numbers l g hg).trans (Nat.lt_succ_self _)
  have hnumbered : Numbered ((H.take c.base).length + 1) (liveRecords a.disk.logs vs.logNumber) := by
    rw [hlen, hre.logNumber]
    exact hcovc.numbered
  obtain ⟨hrecd, hkeys⟩ := recoverLogs_spec cfg hholds hre.prevLogNumber hnum hnumbered
  rw [hlen, hre.logNumber, ← hcovc.ops, List.take_append_drop] at hrecd
  refine ⟨vs, hvs, hdesc, H, A', _, c, hs, hc, hr, hnext, ?_, hre, hH, hcovc, hrecd, ?_⟩
  · intro p ⟨x, hx, hp⟩
    rw [hp]
    exact (hs.valid x hx).1.log_lt.trans_le (hnext x hx)
  · grind [le_or_gt, hre.logNumber, hrecd.next_le, hvalid.log_lt, hre.nextFileNumber]

/-! ## Recording what was read -/

/-- The disk and the version set when `Recover` returns. -/
structure Resolved (cfg : Config K V) (full : Prop) (d : Disk K V) (vs : VersionSet K)
    (hist pend H : List (Op K V)) (m : Nat) (file : LogFile (VersionEdit K))
    (A : Set (Checkpoint K)) (P : Set (Nat × Nat)) (c : Checkpoint K) : Prop where
  before : Sound cfg full d hist pend m file A P
  after : Sound cfg full d H [] m file A P
  checkpoint : c ∈ A
  restores : Restores cfg file.records c
  base : c.base = H.length
  current : vs.current = c.version
  logNumber : vs.logNumber = c.log
  prevLogNumber : vs.prevLogNumber = 0
  pointers : ∀ level k, vs.compactPointer level = some k → k ≠ .cleared
  attached : Attached vs m
  lastSequence : vs.lastSequence = H.length
  next_le : ∀ x ∈ A, x.next ≤ vs.nextFileNumber
  pairs_le : ∀ p ∈ P, p.1 ≤ vs.nextFileNumber
  keys_lt : ∀ n ∈ d.logs.keys, n < vs.nextFileNumber

theorem Reading.versions {st : Recovering K V}
    (h : Reading cfg full d vs st hist pend H m file A P c) :
    (if st.versions.lastSequence < st.maxSequence then
      { st.versions with lastSequence := st.maxSequence } else st.versions) =
    { vs with nextFileNumber := st.versions.nextFileNumber, lastSequence := H.length } := by
  have hvalid := (h.sound.valid c h.checkpoint).1
  have hlast : st.versions.lastSequence = c.last := by
    rw [h.recovered.versions]
    exact h.reopened.lastSequence
  have hle : hist.length ≤ H.length := by
    obtain rfl | rfl := h.outcome
    · exact le_refl _
    · simp
  obtain ⟨hmax, hlen⟩ := h.recovered.sequence
  have h1 := hvalid.base_le
  have h2 := hvalid.last_le
  have h3 := h.covered.base_le
  rw [hlast]
  split_ifs with hlt
  · rw [h.recovered.versions, show st.maxSequence = H.length by omega]
  · grind [h.reopened.lastSequence, h.recovered.versions]

theorem Sound.settle (h : Sound cfg full d hist pend m file A P) (hH : H = hist ∨ H = hist ++ pend)
    (hcov : Covers d.logs H [] P) : Sound cfg full d H [] m file A P := by
  have hle : hist.length ≤ H.length ∧ H.length ≤ (hist ++ pend).length := by
    obtain rfl | rfl := hH
    · simp
    · simp
  refine { h with valid := ?_, covers := hcov, bounded := ?_ }
  · intro x hx
    obtain ⟨hval, hm⟩ := h.valid x hx
    obtain ⟨H', hH', hcov'⟩ := hcov d.logs (.refl _)
    obtain rfl : H' = H := by simpa using hH'
    have hbase := (hcov' _ (h.pairs x hx)).base_le
    refine ⟨{ hval with holds := ?_, last_le := ?_ }, hm⟩
    · have hholds := hval.holds
      rw [append_nil, take_of_outcome hH, take_take, min_eq_left hbase]
      exact hholds
    · have := hval.last_le
      omega
  · rw [append_nil]
    exact hle.2.trans h.bounded

section Finish

variable {st : Recovering K V}

theorem Reading.resolved_of_unsaved (h : Reading cfg full d vs st hist pend H m file A P c)
    (hdesc : vs.descriptorLog = none ∨ vs.descriptorLog = some m)
    (hsave : st.saveManifest = false) :
    Resolved cfg full st.disk
      { vs with nextFileNumber := st.versions.nextFileNumber, lastSequence := H.length }
      hist pend H m file A P c := by
  have hre := h.reopened
  have hnext := h.recovered.next_le
  rw [hre.nextFileNumber] at hnext
  have hle : ∀ x ∈ A, x.next ≤ vs.nextFileNumber := by
    intro x hx
    rw [hre.nextFileNumber]
    exact (h.next_le x hx).trans (Nat.le_succ _)
  have hs := h.sound.agrees h.recovered.agrees hle
  have hbase := (h.recovered.saved hsave).2
  have hlogs := h.recovered.agrees.logs
  have hcov : Covers st.disk.logs H [] P := by
    rw [hlogs]
    exact h.sound.covers.settle (h.sound.pairs c h.checkpoint) h.outcome h.covered hbase
  refine ⟨hs, hs.settle h.outcome hcov, h.checkpoint, h.restores, hbase.symm, hre.current,
    hre.logNumber, hre.prevLogNumber, hre.pointers, ?_, rfl, ?_, ?_, ?_⟩
  · obtain hnone | hsome := hdesc
    · refine Or.inr ⟨hnone, ?_, ?_⟩
      · dsimp only
        rw [hre.manifestFileNumber]
        exact (h.sound.valid c h.checkpoint).2.ne'
      · dsimp only
        rw [hre.manifestFileNumber]
        exact hnext
    · exact Or.inl hsome
  · exact fun x hx => (hle x hx).trans h.recovered.next_le
  · exact fun p hp => (h.pairs_lt p hp).le.trans ((Nat.le_succ _).trans hnext)
  · rw [hlogs]
    exact h.keys_lt

def Recovering.lastEdit (st : Recovering K V) : VersionEdit K :=
  { st.edit with logNumber := some st.versions.nextFileNumber }

def Recovering.checkpoint (st : Recovering K V) (v : Version K) (length : Nat) : Checkpoint K :=
  ⟨v.applyEdit st.lastEdit, st.versions.nextFileNumber + 1, length, st.versions.nextFileNumber,
    length⟩

theorem Reading.advances (h : Reading cfg full d vs st hist pend H m file A P c)
    {vs' : VersionSet K} (hvs' : vs' =
      { vs with nextFileNumber := st.versions.nextFileNumber + 1, lastSequence := H.length }) :
    Advances cfg (vs'.completeEdit st.lastEdit) c (st.checkpoint c.version H.length) ∧
      Holds full (st.checkpoint c.version H.length).version st.disk.store H ∧
      ∀ level, ∀ f ∈ (st.checkpoint c.version H.length).version.files level,
        f.number < (st.checkpoint c.version H.length).next := by
  subst hvs'
  have hvalid := (h.sound.valid c h.checkpoint).1
  have hre := h.reopened
  have hrec := h.recovered
  have hnum : ∀ l, ∀ g ∈ c.version.files l, g.number < vs.nextFileNumber := by
    intro l g hg
    rw [hre.nextFileNumber]
    exact (hvalid.numbers l g hg).trans (Nat.lt_succ_self _)
  have hcver : (st.checkpoint c.version H.length).version = c.version.applyEdit st.edit :=
    Version.applyEdit_congr rfl rfl
  have hholds : Holds full (st.checkpoint c.version H.length).version st.disk.store H := by
    rw [hcver]
    exact hrec.holds
  have hnext := hrec.next_le
  rw [hre.nextFileNumber] at hnext
  refine ⟨?_, hholds, ?_⟩
  · refine advances_completeEdit (Session.decodes_of_holds hholds (hrec.fresh hnum) ?_ ?_ ?_) ?_ ?_
      rfl rfl rfl ?_ ?_
    · intro p hp
      rw [(hrec.files p hp).1]
      decide
    · intro p hp
      have hp' : p ∈ st.edit.deletedFiles := hp
      rw [hrec.edit] at hp'
      exact absurd hp' not_mem_nil
    · intro p hp
      have hp' : p ∈ st.edit.compactPointers := hp
      rw [hrec.edit] at hp'
      exact absurd hp' not_mem_nil
    · show st.edit.comparator = none
      rw [hrec.edit]
    · show st.edit.prevLogNumber.getD vs.prevLogNumber = 0
      rw [hrec.edit]
      exact hre.prevLogNumber
    · intro b hb
      refine hb.fresh (by show c.next ≤ st.versions.nextFileNumber + 1; omega) hrec.nodup ?_
      intro p hp
      obtain ⟨-, hge, hlt⟩ := hrec.files p hp
      rw [hre.nextFileNumber] at hge
      show c.next ≤ p.2.number ∧ p.2.number < st.versions.nextFileNumber + 1
      omega
    · show c.next ≤ st.versions.nextFileNumber + 1
      omega
  · intro level f hf
    rw [hcver] at hf
    exact (hrec.number_lt hnum hf).trans (Nat.lt_succ_self _)

theorem Reading.resolved_of_saved (h : Reading cfg full d vs st hist pend H m file A P c)
    (hdesc : vs.descriptorLog = none) {vs' : VersionSet K} (hvs' : vs' =
      { vs with nextFileNumber := st.versions.nextFileNumber + 1, lastSequence := H.length }) :
    (∀ x ∈ (vs'.logAndApply cfg st.disk st.lastEdit).passed, Recoverable cfg full x hist pend) ∧
      ∃ m file A P c, Resolved cfg full (vs'.logAndApply cfg st.disk st.lastEdit).disk
        (vs'.logAndApply cfg st.disk st.lastEdit).versions hist pend H m file A P c := by
  have hvalid := (h.sound.valid c h.checkpoint).1
  have hre := h.reopened
  have hnext := h.recovered.next_le
  rw [hre.nextFileNumber] at hnext
  have hs := h.sound.agrees h.recovered.agrees fun x hx => by
    rw [hre.nextFileNumber]
    exact (h.next_le x hx).trans (Nat.le_succ _)
  obtain ⟨hadv, hholds, hnum⟩ := h.advances hvs'
  have hptr : ∀ level k, vs'.compactPointer level = some k → k ≠ .cleared := by
    rw [hvs']
    exact hre.pointers
  have hcur : vs'.current = c.version := by
    rw [hvs']
    exact hre.current
  have hnext' : vs'.nextFileNumber = st.versions.nextFileNumber + 1 := by rw [hvs']
  have hinst := logAndApply_installed st.disk
    (show (st.checkpoint c.version H.length).version = _ by rw [hcur]; rfl) hadv hptr
  obtain ⟨hpassed, hdescr, file', hsync, hr, hdisk⟩ := logAndApply_create st.disk
    (by rw [hvs']; exact hdesc) hvalid.holds hvalid.numbers hcur hadv hptr
  have hman : vs'.manifestFileNumber = c.next := by
    rw [hvs']
    exact hre.manifestFileNumber
  generalize vs'.manifestFileNumber = n at hpassed hdescr hdisk hman
  have hkeys : ∀ k ∈ st.disk.logs.keys, k < st.versions.nextFileNumber := by
    rw [h.recovered.agrees.logs]
    exact h.keys_lt
  have hsound : ∀ hist' pend', (H = hist' ∨ H = hist' ++ pend') →
      (hist' ++ pend').length ≤ kMaxSequenceNumber →
      Sound cfg full (vs'.logAndApply cfg st.disk st.lastEdit).disk hist' pend' n file'
        {st.checkpoint c.version H.length} {(st.versions.nextFileNumber, H.length)} := by
    intro hist' pend' hH hb
    rw [hdisk]
    refine sound_of_synced rfl (by simp) hsync hr ?_ ⟨?_, hnum, le_refl _, le_max_right _ _,
      Nat.lt_succ_self _⟩ rfl (Covers.of_keys_lt hkeys hH) hb
    · show n < st.versions.nextFileNumber + 1
      omega
    · show Holds full _ _ ((hist' ++ pend').take H.length)
      rw [← take_of_outcome hH]
      exact hholds
  refine ⟨?_, n, file', _, _, _, hsound hist pend h.outcome h.sound.bounded,
    hsound H [] (Or.inl rfl) ?_, rfl, hr, rfl, hinst.current, hinst.logNumber, hinst.prevLogNumber,
    hinst.pointers, Or.inl hdescr, by rw [hinst.lastSequence, hvs'], ?_, ?_, ?_⟩
  · intro x hx
    obtain rfl | ⟨f, rfl⟩ := hpassed x hx
    · exact hs.recoverable
    · refine (hs.setManifest ?_ f).recoverable
      rw [hman]
      exact (h.sound.valid c h.checkpoint).2.ne'
  · have hb := h.sound.bounded
    rw [append_nil]
    obtain rfl | rfl := h.outcome
    · exact le_trans (by simp) hb
    · exact hb
  · intro x hx
    rw [Set.mem_singleton_iff.mp hx, hinst.nextFileNumber, hnext']
    exact le_refl _
  · intro p hp
    rw [Set.mem_singleton_iff.mp hp, hinst.nextFileNumber, hnext']
    exact Nat.le_succ _
  · intro k hk
    rw [hinst.nextFileNumber, hnext']
    have hk' : k ∈ st.disk.logs.keys := by
      rw [← logAndApply_logs cfg vs' st.disk]
      exact hk
    exact (hkeys k hk').trans (Nat.lt_succ_self _)

theorem Reading.resolved (h : Reading cfg full d vs st hist pend H m file A P c)
    (hdesc : vs.descriptorLog = none ∨ vs.descriptorLog = some m ∧ st.saveManifest = false) :
    (∀ x ∈ (finishRecovery cfg st).passed, Recoverable cfg full x hist pend) ∧
      ∃ m file A P c, Resolved cfg full (finishRecovery cfg st).disk (finishRecovery cfg st).versions
        hist pend H m file A P c := by
  unfold finishRecovery
  rw [h.versions]
  cases hsave : st.saveManifest with
  | false =>
    exact ⟨fun x hx => absurd hx not_mem_nil, m, file, A, P, c,
      h.resolved_of_unsaved (hdesc.imp_right And.left) hsave⟩
  | true =>
    obtain hnone | ⟨-, hfalse⟩ := hdesc
    · exact h.resolved_of_saved hnone rfl
    · rw [hsave] at hfalse
      cases hfalse

end Finish

/-! ## The open database -/

theorem Resolved.session (h : Resolved cfg full d vs hist pend H m file A P c) :
    Recoverable cfg full (d.createLog vs.nextFileNumber) hist pend ∧
      Session cfg full
        { disk := d.createLog vs.nextFileNumber
          versions := { vs with nextFileNumber := vs.nextFileNumber + 1 }
          mem := []
          imm := none
          logfileNumber := vs.nextFileNumber
          pending := none
          job := none }
        H m file A (insert (vs.nextFileNumber, H.length) P) c H.length := by
  constructor
  · exact Sound.recoverable { h.before with covers := h.before.covers.create h.keys_lt h.pairs_le }
  · exact
      { sound :=
          { h.after with
            pairs := fun x hx => Set.mem_insert_of_mem _ (h.after.pairs x hx)
            covers := h.after.covers.create_self h.keys_lt h.pairs_le }
        checkpoint := h.checkpoint
        restores := h.restores
        current := h.current
        logNumber := h.logNumber
        prevLogNumber := h.prevLogNumber
        pointers := h.pointers
        attached := Session.attached_mono h.attached rfl rfl (Nat.le_succ _)
        next_le := fun x hx => (h.next_le x hx).trans (Nat.le_succ _)
        lastSequence := h.lastSequence
        base_le := h.base.le
        mid_le := le_refl _
        mem := by
          rw [drop_length]
          rfl
        imm := Or.inl ⟨rfl, h.base⟩
        here := Set.mem_insert _ _
        pairs_le := by
          intro p hp
          obtain rfl | hp := Set.mem_insert_iff.mp hp
          · exact le_refl _
          · exact h.pairs_le p hp
        keys_le := by
          intro n hn
          unfold Disk.createLog at hn
          rw [← AList.mem_keys, AList.mem_insert, AList.mem_keys] at hn
          obtain rfl | hn := hn
          · exact le_refl _
          · exact (h.keys_lt n hn).le
        logfile := ⟨_, AList.lookup_insert _⟩
        logfile_lt := Nat.lt_succ_self _
        pending := fun b hb => by cases hb
        job := fun j hj => by cases hj }

/-- **Open.** From a recoverable disk `Open` succeeds, with the group in flight or without
    it, and a crash in between leaves a recoverable disk. -/
theorem openDb_spec (h : Recoverable cfg full d hist pend) :
    (∀ x ∈ (openDb cfg d).1, Recoverable cfg full x hist pend) ∧
      ∃ s H m file A P c mid, (openDb cfg d).2 = .ok s ∧ (H = hist ∨ H = hist ++ pend) ∧
        s.pending = none ∧ Session cfg full s H m file A P c mid := by
  obtain ⟨m, file, A, P, hstart⟩ := createIfMissing_started h
  obtain ⟨vs, hvs, hdesc, H, A', P', c, hread⟩ := hstart.reading
  have hunsaved : (createIfMissing cfg d).disk.logs.keys = [] →
      (recoverLogs cfg (createIfMissing cfg d).disk vs).saveManifest = false := by
    intro hkeys
    unfold recoverLogs liveLogs
    rw [hkeys]
    rfl
  obtain ⟨hdone, m', file', A'', P'', c', hres⟩ := hread.resolved (by
    rw [hdesc]
    exact hstart.descriptor.imp_right fun h => ⟨h.1, hunsaved h.2⟩)
  obtain ⟨hlast, hsession⟩ := hres.session
  have hagrees : ∀ {x : Disk K V}, (createIfMissing cfg d).disk.Agrees vs.nextFileNumber x →
      Recoverable cfg full x hist pend := by
    intro x hx
    refine (hread.sound.agrees hx fun x hx => ?_).recoverable
    rw [hread.reopened.nextFileNumber]
    exact (hread.next_le x hx).trans (Nat.le_succ _)
  unfold openDb
  dsimp only
  rw [hvs]
  dsimp only
  refine ⟨?_, _, H, m', file', A'', _, c', _, rfl, hread.outcome, rfl, hsession⟩
  intro x hx
  simp only [mem_append, mem_cons, not_mem_nil, or_false] at hx
  obtain ((hx | hx) | rfl | hx) | rfl | rfl := hx
  · exact hstart.passed x hx
  · exact hagrees (hread.recovered.passed x hx)
  · exact hagrees hread.recovered.agrees
  · exact hdone x hx
  · exact hres.before.recoverable
  · exact hlast

end LevelDB
