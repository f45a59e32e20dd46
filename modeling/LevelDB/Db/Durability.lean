/-
  What holds along every run of the database.

  `State.Inv` ties a state of the machine to a state of the durability specification: an open
  database has a `Session`, the files of a closed one are `Recoverable`. Steps keep it
  (`step_simulates`), so runs of the machine are runs of the specification (`run_simulates`).
-/
import LevelDB.Db.Open

namespace LevelDB

open List Transition

variable {K V : Type} [LinearOrder K] [Inhabited K] [Inhabited V]

variable {cfg : Config K V} {full : Prop} {allows : Output K V → Prop} {s : Db K V}
  {hist : List (Op K V)} {m : Nat} {file : LogFile (VersionEdit K)} {A : Set (Checkpoint K)}
  {P : Set (Nat × Nat)} {c : Checkpoint K} {mid : Nat}

/-! ## Runs -/

def State.Inv (cfg : Config K V) (full : Prop) : State K V → Spec K V → Prop
  | .opened s, spec => s.inFlight = spec.inFlight ∧
      ∃ m file A P c mid, Session cfg full s spec.hist m file A P c mid
  | .closed d, spec => Recoverable cfg full d spec.hist spec.inFlight

theorem Recoverable.cut {d x : Disk K V} {hist pend : List (Op K V)}
    (h : Recoverable cfg full d hist pend) (hcut : d.Cut x) : Recoverable cfg full x hist pend := by
  obtain ⟨hcur, hkeys, hhist, hpend⟩ | ⟨m, file, A, P, h⟩ := h
  · refine Or.inl ⟨hcut.current.trans hcur, ?_, hhist, hpend⟩
    apply eq_nil_iff_forall_not_mem.mpr
    intro n hn
    rw [hcut.logs.mem_keys, hkeys] at hn
    exact not_mem_nil hn
  · obtain ⟨file', -, hs⟩ := h.cut hcut
    exact hs.recoverable

theorem step_simulates (hallows : ∀ r, allows r → ¬ full ∧ ∀ p ∈ r, p.2 ≠ []) {st st' : State K V}
    {e : Event K V} {spec : Spec K V} (h : st.Inv cfg full spec) (hstep : Step cfg allows st e st') :
    ∃ spec', Spec.Step spec e spec' ∧ st'.Inv cfg full spec' := by
  obtain ⟨hist, inFlight⟩ := spec
  cases hstep with
  | write hpending hfits =>
    obtain ⟨hflight, m, file, A, P, c, mid, hs⟩ := h
    rw [Session.inFlight_of_pending_none hpending] at hflight
    obtain rfl : inFlight = [] := hflight.symm
    exact ⟨_, .write, rfl, m, file, A, P, c, mid, hs.beginWrite hpending hfits⟩
  | @acknowledge s b hpending =>
    obtain ⟨hflight, m, file, A, P, c, mid, hs⟩ := h
    have hops : s.inFlight = b.ops := by
      unfold Db.inFlight
      rw [hpending]
      rfl
    obtain rfl : b.ops = inFlight := hops.symm.trans hflight
    exact ⟨_, .acknowledge, rfl, m, file, A, P, c, mid, hs.finishWrite hpending⟩
  | work hwork =>
    obtain ⟨hflight, m, file, A, P, c, mid, hs⟩ := h
    obtain ⟨hpending, -, hs'⟩ := hs.work hallows hwork
    refine ⟨_, .work, ?_, hs'⟩
    unfold Db.inFlight at hflight ⊢
    rw [hpending]
    exact hflight
  | crash hcut =>
    obtain ⟨hflight, m, file, A, P, c, mid, hs⟩ := h
    have hrec := hs.sound.recoverable.cut hcut
    rw [hflight] at hrec
    exact ⟨_, .crash, hrec⟩
  | crashInWork hwork hx hcut =>
    obtain ⟨hflight, m, file, A, P, c, mid, hs⟩ := h
    obtain ⟨-, hpassed, -⟩ := hs.work hallows hwork
    have hrec := (hpassed _ hx).cut hcut
    rw [hflight] at hrec
    exact ⟨_, .crash, hrec⟩
  | reopen hopen =>
    obtain ⟨-, s, H, m, file, A, P, c, mid, hok, hH, hpending, hs⟩ := openDb_spec h
    obtain rfl := Except.ok.inj (hopen.symm.trans hok)
    have hflight := Session.inFlight_of_pending_none hpending
    obtain rfl | rfl := hH
    · exact ⟨_, .lose, hflight, m, file, A, P, c, mid, hs⟩
    · exact ⟨_, .keep, hflight, m, file, A, P, c, mid, hs⟩
  | crashInOpen hx hcut =>
    obtain ⟨hpassed, -⟩ := openDb_spec h
    exact ⟨_, .crash, (hpassed _ hx).cut hcut⟩

/-- **Runs.** A run of the database is a run of the specification. -/
theorem run_simulates (full : Prop) (hallows : ∀ r, allows r → ¬ full ∧ ∀ p ∈ r, p.2 ≠ [])
    {events : List (Event K V)} {st : State K V} (h : Run cfg allows events st) :
    ∃ spec, Spec.Run events spec ∧ st.Inv cfg full spec := by
  refine Trace.simulation (R := State.Inv cfg full) ?_ (step_simulates hallows) h
  exact Or.inl ⟨rfl, rfl, rfl, rfl⟩

/-! ## What a database serves -/

/-- `DBImpl::Get` without a snapshot. -/
def Db.get (s : Db K V) (k : K) : Except Status (Option V) :=
  dbGet s.mem s.imm s.versions.current s.disk.store.cacheGet k s.versions.lastSequence

/-- Reads see the map that the operations build, and no table has a sequence number above
    the last one. -/
structure Db.Serves (s : Db K V) (H : List (Op K V)) : Prop where
  get : ∀ k, Reports (s.get k) (applyOps H k)
  sequence_le : ∀ e ∈ s.versions.current.entries s.disk.store,
    e.sequence ≤ s.versions.lastSequence

theorem Session.split (h : Session cfg True s hist m file A P c mid) :
    Split s.mem s.imm s.versions.current s.disk.store hist c.base mid :=
  ⟨h.holds, h.base_le, h.mid_le, h.mem, h.imm⟩

theorem Session.serves (h : Session cfg True s hist m file A P c mid) :
    s.Serves hist where
  get := by
    intro k
    have hget := h.split.dbGet_reports k s.versions.lastSequence
    rw [h.lastSequence, take_length] at hget
    unfold Db.get
    rw [h.lastSequence]
    exact hget
  sequence_le := by
    intro e he
    have hle := (h.holds.sequence_bounds he).2
    rw [length_take] at hle
    rw [h.lastSequence]
    omega

/-- **Crash recovery.** In a run of writes, memtable switches, flushes, crashes and reopens,
    an open database serves the acknowledged operations, and a closed one can be opened and
    then serves these, or these and the group that was in flight. -/
theorem crash_recovery {events : List (Event K V)} {st : State K V}
    (h : Run cfg (fun _ => False) events st) :
    ∃ hist inFlight, Spec.Run events ⟨hist, inFlight⟩ ∧
      match st with
      | .opened s => s.Serves hist
      | .closed d => ∃ s, (openDb cfg d).2 = .ok s ∧
          (s.Serves hist ∨ s.Serves (hist ++ inFlight)) := by
  obtain ⟨⟨hist, inFlight⟩, hspec, hinv⟩ :=
    run_simulates True (fun _ hr => hr.elim) h
  refine ⟨hist, inFlight, hspec, ?_⟩
  cases st with
  | opened s =>
    obtain ⟨-, m, file, A, P, c, mid, hs⟩ := hinv
    exact hs.serves
  | closed d =>
    obtain ⟨-, s, H, m, file, A, P, c, mid, hok, hH, -, hs⟩ := openDb_spec hinv
    refine ⟨s, hok, ?_⟩
    obtain rfl | rfl := hH
    · exact Or.inl hs.serves
    · exact Or.inr hs.serves

section Sample

def sampleConfig : Config Nat String := .oneBlock "leveldb.BytewiseComparator" 2097152

def sampleNew : Db Nat String :=
  (openDb sampleConfig .empty).2.toOption.getD ⟨.empty, .init, [], none, 0, none, none⟩

theorem sampleNew_open : (openDb sampleConfig .empty).2 = .ok sampleNew := rfl

def sampleFlushed : Db Nat String :=
  let s := ((sampleNew.beginWrite [.put 1 "a"]).finishWrite ⟨1, [.put 1 "a"]⟩).switchMemTable
  (s.flush sampleConfig (s.imm.getD [])).2

def sampleEvents : List (Event Nat String) :=
  [.reopen, .write [.put 1 "a"], .acknowledge, .work, .work]

theorem sampleFlushed_run (allows : Output Nat String → Prop) :
    Run sampleConfig allows sampleEvents (.opened sampleFlushed) := by
  have h0 : Run sampleConfig allows [.reopen] (.opened sampleNew) :=
    Trace.step .start (.reopen sampleNew_open)
  have h1 : Run sampleConfig allows [.reopen, .write [.put 1 "a"], .acknowledge] _ :=
    Trace.step (Trace.step h0 (.write rfl (by decide)))
    (.acknowledge rfl)
  exact Trace.step (Trace.step h1 (.work (.switchMemTable rfl rfl))) (.work (.flush rfl rfl))

theorem crash_recovery_sample :
    Run sampleConfig (fun _ => False) (sampleEvents ++ [.write [.delete 1]] ++ [.crash])
      (.closed (sampleFlushed.beginWrite [.delete 1]).disk) ∧
    ∃ hist inFlight, Spec.Run (sampleEvents ++ [.write [.delete 1]] ++ [.crash])
        ⟨hist, inFlight⟩ ∧
      ∃ s, (openDb sampleConfig (sampleFlushed.beginWrite [.delete 1]).disk).2 = .ok s ∧
        (s.Serves hist ∨ s.Serves (hist ++ inFlight)) := by
  have h : Run sampleConfig (fun _ => False) (sampleEvents ++ [.write [.delete 1]] ++ [.crash])
      (.closed (sampleFlushed.beginWrite [.delete 1]).disk) :=
    Trace.step (Trace.step (sampleFlushed_run _) (.write rfl (by decide))) (.crash (.refl _))
  exact ⟨h, crash_recovery h⟩

end Sample

/-! ## The level order -/

def NonemptyOutput (r : Output K V) : Prop := ∀ p ∈ r, p.2 ≠ []

omit [LinearOrder K] [Inhabited K] [Inhabited V] in
theorem nonemptyOutput_allows (r : Output K V) (h : NonemptyOutput r) :
    ¬ False ∧ ∀ p ∈ r, p.2 ≠ [] := ⟨not_false, h⟩

/-- The metadata of every file has keys that enclose those of its table, and the records of
    the manifest can be read back. -/
structure Db.WellDescribed (cfg : Config K V) (s : Db K V) : Prop where
  keys : ∀ level, ∀ f ∈ s.versions.current.files level,
    f.smallest ≠ .cleared ∧ f.largest ≠ .cleared
  ordered : ∀ level, ∀ f ∈ s.versions.current.files level, f.smallest ≤ f.largest
  bounds : ∀ level, ∀ f ∈ s.versions.current.files level,
    ∀ e ∈ (s.disk.store f.number).entries, f.smallest ≤ e.key ∧ e.key ≤ f.largest
  accepted : ∀ m records, s.disk.manifestRecords = some (m, records) →
    ∀ edit ∈ records, edit.Accepted cfg

theorem Session.wellDescribed (h : Session cfg full s hist m file A P c mid) :
    s.WellDescribed cfg where
  keys := fun _ _ hf => h.holds.keys_ne_cleared hf
  ordered := h.holds.layered.ranged
  bounds := fun level f hf => (h.holds.layered.intact level f hf).bounds
  accepted := by
    intro n records hrec
    obtain ⟨st, hst, -⟩ := h.restores.replays
    unfold Disk.manifestRecords at hrec
    rw [h.sound.current, Option.bind_some, h.sound.manifest] at hrec
    obtain ⟨-, rfl⟩ := Prod.mk.inj (Option.some.inj hrec)
    exact accepted_of_replay hst

theorem Session.empty_output (h : Session cfg full s hist m file A P c mid) {j : Job K}
    (hjob : s.job = some j) {r : Output K V}
    (hwork : doCompactionWork s.versions.current s.disk.store j.compaction j.smallestSnapshot
      j.number j.env = .ok r) (hr : ¬ NonemptyOutput r) :
    ¬ (s.installCompaction cfg j.compaction r).2.WellDescribed cfg := by
  obtain ⟨hc, hnum, -⟩ := h.job j hjob
  have hlayered := h.holds.layered
  have hclosed := hc.closed hlayered.levelsSorted hlayered.ranged
  obtain ⟨-, rfl⟩ | ⟨-, -, -, f, kept, rfl, -, hfn, hsmall, -⟩ := doCompactionWork_ok hwork
  · exact absurd (fun p hp => by cases hp) hr
  · have hkept : kept = [] := by
      by_contra hne
      exact hr fun p hp => by rw [← Option.some.inj hp]; exact hne
    have hfresh : ∀ g ∈ some f, ∀ level, ∀ x ∈ s.versions.current.files level,
        x.number ≠ g.number := by
      intro g hg level x hx
      rw [← Option.some.inj hg, hfn]
      exact ((h.number_lt hx).trans_le (hnum c h.checkpoint)).ne
    have hmem : f ∈ (s.versions.current.applyEdit
        (compactionEdit j.compaction (some f))).files (j.compaction.level + 1) :=
      (mem_compactionEdit_files hlayered.intact hclosed hfresh hc.level_lt).mpr (Or.inl ⟨rfl, rfl⟩)
    intro hdesc
    refine (hdesc.keys (j.compaction.level + 1) f ?_).1 (by rw [hsmall, hkept]; rfl)
    have hcur : (s.installCompaction cfg j.compaction (some (f, kept))).2.versions.current =
        s.versions.current.applyEdit (compactionEdit j.compaction (some f)) := by
      unfold Db.installCompaction VersionSet.logAndApply
      dsimp only
      cases s.versions.descriptorLog with
      | some n => rfl
      | none => rfl
    rw [hcur]
    exact hmem

/-- **Metadata.** Along every run without empty compaction outputs the metadata of all files
    is right and the manifest can be read back; and of the operations that may come next,
    exactly those without an empty output keep that. -/
theorem run_wellDescribed_iff {events : List (Event K V)}
    (h : Run cfg NonemptyOutput events (.opened s)) :
    s.WellDescribed cfg ∧ ∀ passed s', Work cfg (fun _ => True) s passed s' →
      (s'.WellDescribed cfg ↔ Work cfg NonemptyOutput s passed s') := by
  obtain ⟨_, -, -, m, file, A, P, c, mid, hs⟩ := run_simulates False nonemptyOutput_allows h
  refine ⟨hs.wellDescribed, ?_⟩
  intro passed s' hw
  constructor
  · intro hdesc
    cases hw with
    | switchMemTable hpending himm => exact .switchMemTable hpending himm
    | flush himm hjob => exact .flush himm hjob
    | moveFile hjob hc htrivial => exact .moveFile hjob hc htrivial
    | compactNothing hjob hc hinput _ =>
      exact .compactNothing hjob hc hinput fun p hp => by cases hp
    | startCompaction hjob hc hinput => exact .startCompaction hjob hc hinput
    | @finishCompaction j output hjob hwork _ =>
      refine .finishCompaction hjob hwork ?_
      by_contra hr
      exact hs.empty_output hjob hwork hr hdesc
    | abandonCompaction hjob => exact .abandonCompaction hjob
  · intro hw'
    obtain ⟨-, -, m', file', A', P', c', mid', hs'⟩ := hs.work nonemptyOutput_allows hw'
    exact hs'.wellDescribed

theorem run_wellDescribed_iff_sample :
    Run sampleConfig NonemptyOutput sampleEvents (.opened sampleFlushed) ∧
      sampleFlushed.WellDescribed sampleConfig :=
  ⟨sampleFlushed_run _, (run_wellDescribed_iff (sampleFlushed_run _)).1⟩

def sampleDeleted : Db Nat String :=
  let s := ((sampleFlushed.beginWrite [.delete 1]).finishWrite ⟨2, [.delete 1]⟩).switchMemTable
  (s.flush sampleConfig (s.imm.getD [])).2

def sampleCompaction : Compaction Nat :=
  (sampleDeleted.versions.current.compactRange sampleConfig.maxFileSize 1 none none).getD
    ⟨0, [], [], [], .cleared⟩

def sampleCompacting : Db Nat String := sampleDeleted.startCompaction sampleCompaction 2 {}

def sampleEmptied : Db Nat String :=
  (sampleCompacting.installCompaction sampleConfig sampleCompaction
    (some (⟨8, 1, .cleared, .cleared⟩, []))).2

theorem sampleCompacting_job : sampleCompacting.job = some ⟨sampleCompaction, 2, 8, {}⟩ := by
  have hnext : sampleDeleted.versions.nextFileNumber = 8 := by decide +kernel
  unfold sampleCompacting Db.startCompaction
  dsimp only
  rw [hnext]

theorem sampleCompacting_work :
    Work sampleConfig (fun _ => True) sampleCompacting
      (sampleCompacting.installCompaction sampleConfig sampleCompaction
        (some (⟨8, 1, .cleared, .cleared⟩, []))).1 sampleEmptied := by
  have hwork : doCompactionWork sampleCompacting.versions.current sampleCompacting.disk.store
      sampleCompaction 2 8 {} = .ok (some (⟨8, 1, .cleared, .cleared⟩, [])) := by decide +kernel
  exact @Work.finishCompaction _ _ _ _ _ sampleConfig _ sampleCompacting
    ⟨sampleCompaction, 2, 8, {}⟩ _ sampleCompacting_job hwork trivial

/-- A put that has been flushed, a delete of its key, and a compaction of both: the file it
    installs has no keys, and the manifest cannot be read any more. -/
theorem empty_output_unreadable :
    Run sampleConfig (fun _ => True)
      (sampleEvents ++ [.write [.delete 1]] ++ [.acknowledge] ++ [.work] ++ [.work] ++ [.work] ++
        [.work]) (.opened sampleEmptied) ∧
    sampleEmptied.versions.current.files 2 = [⟨8, 1, .cleared, .cleared⟩] ∧
    (openDb sampleConfig sampleEmptied.disk).2 =
      .error (.corruptionErr "VersionEdit: bad InternalKey") := by
  have hdeleted : Run sampleConfig (fun _ => True)
      (sampleEvents ++ [.write [.delete 1]] ++ [.acknowledge] ++ [.work] ++ [.work])
      (.opened sampleDeleted) :=
    Trace.step (Trace.step (Trace.step (Trace.step (sampleFlushed_run _) (.write rfl (by decide)))
      (.acknowledge rfl)) (.work (.switchMemTable rfl rfl))) (.work (.flush rfl rfl))
  have hpicked : Picked sampleDeleted.versions.current sampleCompaction :=
    .manual sampleConfig.maxFileSize none none (show 1 + 1 < kNumLevels by decide) rfl
  have hstart : Step sampleConfig (fun _ => True) (.opened sampleDeleted) .work
      (.opened sampleCompacting) := .work (.startCompaction rfl hpicked (by decide +kernel))
  refine ⟨Trace.step (Trace.step hdeleted hstart) (.work sampleCompacting_work), ?_, ?_⟩
  · decide +kernel
  · rfl

end LevelDB
