/-
  Opening a database (`DB::Open`, `DBImpl::Recover`, `DBImpl::RecoverLogFile`,
  `db/db_impl.cc`).

  `openDb` returns the disks it passes through and its result, so that a crash can hit
  anywhere inside it: after a table has been built, inside `LogAndApply`, before or after
  CURRENT is switched. There are no I/O errors here; errors of `VersionSet::Recover` remain.
-/
import Mathlib.Data.List.Sort
import LevelDB.Db.Contents

namespace LevelDB

open List SortedList

variable {K V : Type} [LinearOrder K]

/-- A compaction whose output is being written: `DoCompactionWork` releases the mutex for
    that. `env` is what it will meet. -/
structure Job (K : Type) where
  compaction : Compaction K
  smallestSnapshot : Nat
  number : Nat
  env : CompactionEnv

/-- `class DBImpl`, once open. `pending` is the batch whose record has been appended to the
    log but which has not been inserted into the memtable yet. -/
structure Db (K V : Type) [LinearOrder K] where
  disk : Disk K V
  versions : VersionSet K
  mem : MemTable K V
  imm : Option (MemTable K V)
  logfileNumber : Nat
  pending : Option (WriteBatch K V)
  job : Option (Job K)

/-! ## The logs to read -/

/-- The numbers of the logs that `Recover` reads, in order. -/
def liveLogs (logs : LogDir K V) (logNumber prevLogNumber : Nat) : List Nat :=
  (logs.keys.filter fun n => decide (logNumber ≤ n) ||
    (decide (prevLogNumber ≠ 0) && decide (n = prevLogNumber))).insertionSort (· ≤ ·)

def recordsOf (logs : LogDir K V) (n : Nat) : List (WriteBatch K V) :=
  (logs.lookup n).elim [] LogFile.records

/-- The records of the logs from `logNumber` on, in order. -/
def liveRecords (logs : LogDir K V) (logNumber : Nat) : List (WriteBatch K V) :=
  (liveLogs logs logNumber 0).flatMap (recordsOf logs)

section LiveLogs

omit [LinearOrder K]

theorem mem_liveLogs {logs : LogDir K V} {log n : Nat} :
    n ∈ liveLogs logs log 0 ↔ n ∈ logs.keys ∧ log ≤ n := by
  unfold liveLogs
  rw [mem_insertionSort, mem_filter]
  simp

theorem liveLogs_sorted (logs : LogDir K V) (log : Nat) :
    (liveLogs logs log 0).Pairwise (· < ·) := by
  have hle : (liveLogs logs log 0).Pairwise (· ≤ ·) := pairwise_insertionSort _ _
  have hnodup : (liveLogs logs log 0).Nodup :=
    (perm_insertionSort _ _).nodup_iff.mpr (logs.nodupKeys.filter _)
  exact (hle.and hnodup).imp fun h => lt_of_le_of_ne h.1 h.2

theorem liveLogs_eq {logs : LogDir K V} {log : Nat} {l : List Nat} (hl : l.Pairwise (· < ·))
    (hmem : ∀ n, n ∈ l ↔ n ∈ logs.keys ∧ log ≤ n) : liveLogs logs log 0 = l := by
  have hperm : (liveLogs logs log 0).Perm l := by
    refine (perm_ext_iff_of_nodup ?_ ?_).mpr ?_
    · exact (liveLogs_sorted logs log).imp Nat.ne_of_lt
    · exact hl.imp Nat.ne_of_lt
    · intro n
      rw [mem_liveLogs, hmem]
  refine hperm.eq_of_pairwise ?_ (liveLogs_sorted logs log) hl
  intro a b _ _ hab hba
  omega

end LiveLogs

/-! ## Reading logs -/

/-- The variables of `Recover` while it reads the logs, with the disks passed so far. -/
structure Recovering (K V : Type) [LinearOrder K] where
  passed : List (Disk K V)
  disk : Disk K V
  versions : VersionSet K
  edit : VersionEdit K
  saveManifest : Bool
  maxSequence : Nat

section Open

variable [Inhabited K] [Inhabited V]

/-- The disks `BuildTable` passes through, and the last one. -/
def buildTableOn (cfg : Config K V) (d : Disk K V) (number : Nat) (mem : MemTable K V) :
    List (Disk K V) × Disk K V :=
  if mem.isEmpty then ([], d.clearTable number)
  else ([d.clearTable number], d.finishTable number (cfg.writeTable mem))

def recoverLogFile (cfg : Config K V) (st : Recovering K V) (logNumber : Nat) : Recovering K V :=
  match st.disk.logs.lookup logNumber with
  | none => st
  | some file =>
    let mem := file.records.foldl (fun (mem : MemTable K V) b => mem.addAll b.entries) []
    let count := (file.records.flatMap WriteBatch.ops).length
    let maxSequence := file.records.foldl
      (fun m b => max m (b.sequence + b.ops.length - 1)) st.maxSequence
    if 0 < count then
      let number := st.versions.nextFileNumber
      let built := buildTableOn cfg st.disk number mem
      { passed := st.passed ++ st.disk :: built.1
        disk := built.2
        versions := { st.versions with nextFileNumber := number + 1 }.markFileNumberUsed number
        edit := st.edit.addFile 0 (buildTable cfg number mem)
        saveManifest := true
        maxSequence := maxSequence }
    else { st with maxSequence := maxSequence }

/-- One log in the loop of `Recover`. -/
def recoverLogStep (cfg : Config K V) (st : Recovering K V) (logNumber : Nat) : Recovering K V :=
  let st := recoverLogFile cfg st logNumber
  { st with versions := st.versions.markFileNumberUsed logNumber }

/-- The loop of `Recover` over the logs. -/
def recoverLogs (cfg : Config K V) (d : Disk K V) (vs : VersionSet K) : Recovering K V :=
  (liveLogs d.logs vs.logNumber vs.prevLogNumber).foldl (recoverLogStep cfg)
    ⟨[], d, vs, {}, false, 0⟩

def createIfMissing (cfg : Config K V) (d : Disk K V) : Applied K V :=
  match d.current with
  | none => VersionSet.init.logAndApply cfg d {}
  | some _ => ⟨[], d, .init⟩

/-- The end of `Recover`: what the logs held is recorded in the manifest. -/
def finishRecovery (cfg : Config K V) (st : Recovering K V) : Applied K V :=
  let vs := if st.versions.lastSequence < st.maxSequence then
    { st.versions with lastSequence := st.maxSequence } else st.versions
  if st.saveManifest then
    let newLogNumber := vs.nextFileNumber
    { vs with nextFileNumber := newLogNumber + 1 }.logAndApply cfg st.disk
      { st.edit with logNumber := some newLogNumber }
  else ⟨[], st.disk, vs⟩

/-- `DB::Open` with `create_if_missing`. -/
def openDb (cfg : Config K V) (d : Disk K V) : List (Disk K V) × Except Status (Db K V) :=
  let start := createIfMissing cfg d
  match start.versions.recover cfg start.disk with
  | .error s => (start.passed ++ [start.disk], .error s)
  | .ok vs =>
    let st := recoverLogs cfg start.disk vs
    let done := finishRecovery cfg st
    let number := done.versions.nextFileNumber
    let disk := done.disk.createLog number
    (start.passed ++ st.passed ++ st.disk :: done.passed ++ [done.disk, disk],
      .ok { disk := disk
            versions := { done.versions with nextFileNumber := number + 1 }
            mem := []
            imm := none
            logfileNumber := number
            pending := none
            job := none })

end Open

/-! ## What reading logs does -/

omit [LinearOrder K] in
theorem VersionSet.markFileNumberUsed_eq (vs : VersionSet K) (n : Nat) :
    vs.markFileNumberUsed n = { vs with nextFileNumber := max vs.nextFileNumber (n + 1) } := by
  unfold VersionSet.markFileNumberUsed
  split_ifs with h
  · rw [max_eq_right (by omega)]
  · rw [max_eq_left (by omega)]

omit [LinearOrder K] in
theorem foldl_maxSequence {records : List (WriteBatch K V)} {p m base : Nat}
    (h : Numbered (p + 1) records) (hm : m ≤ p) (hp : p ≤ max base m) :
    records.foldl (fun m b => max m (b.sequence + b.ops.length - 1)) m ≤
        p + (records.flatMap WriteBatch.ops).length ∧
      p + (records.flatMap WriteBatch.ops).length ≤
        max base (records.foldl (fun m b => max m (b.sequence + b.ops.length - 1)) m) := by
  induction records generalizing p m with
  | nil => exact ⟨hm, hp⟩
  | cons b records ih =>
    obtain ⟨hb, hrest⟩ := h
    have hnext : Numbered (p + b.ops.length + 1) records := by
      rw [Nat.add_right_comm]
      exact hrest
    have hmax : max m (b.sequence + b.ops.length - 1) = p + b.ops.length := by omega
    obtain ⟨hle, hge⟩ := ih hnext (m := max m (b.sequence + b.ops.length - 1)) (by omega) (by omega)
    rw [foldl_cons, flatMap_cons, length_append, ← Nat.add_assoc]
    exact ⟨hle, hge⟩

section Spec

variable [Inhabited K] [Inhabited V] {full : Prop} {v : Version K}
  {d : Disk K V} {vs : VersionSet K} {base : Nat} {st : Recovering K V} {H : List (Op K V)}

theorem next_le_recoverLogStep (cfg : Config K V) (st : Recovering K V) (n : Nat) :
    st.versions.nextFileNumber ≤ (recoverLogStep cfg st n).versions.nextFileNumber := by
  grind [recoverLogFile, le_refl, VersionSet.markFileNumberUsed_eq, recoverLogStep, le_max_left]

/-- After some logs: new level-0 tables hold what was read, and the disk is the old one as
    far as the manifest goes. -/
structure Recovered (full : Prop) (v : Version K) (d : Disk K V) (vs : VersionSet K) (base : Nat)
    (st : Recovering K V) (H : List (Op K V)) : Prop where
  versions : st.versions = { vs with nextFileNumber := st.versions.nextFileNumber }
  next_le : vs.nextFileNumber ≤ st.versions.nextFileNumber
  agrees : d.Agrees vs.nextFileNumber st.disk
  passed : ∀ x ∈ st.passed, d.Agrees vs.nextFileNumber x
  edit : st.edit = { newFiles := st.edit.newFiles }
  files : ∀ p ∈ st.edit.newFiles, p.1 = 0 ∧ vs.nextFileNumber ≤ p.2.number ∧
    p.2.number < st.versions.nextFileNumber
  nodup : (st.edit.newFiles.map fun p => p.2.number).Nodup
  holds : Holds full (v.applyEdit st.edit) st.disk.store H
  saved : st.saveManifest = false → st.edit.newFiles = [] ∧ H.length = base
  sequence : st.maxSequence ≤ H.length ∧ H.length ≤ max base st.maxSequence

namespace Recovered

omit [Inhabited K] in
theorem init (h : Holds full v d.store H) (hlen : H.length = base) :
    Recovered full v d vs base ⟨[], d, vs, {}, false, 0⟩ H where
  versions := rfl
  next_le := le_refl _
  agrees := .refl _ d
  passed := fun _ hx => absurd hx not_mem_nil
  edit := rfl
  files := fun _ hp => absurd hp not_mem_nil
  nodup := nodup_nil
  holds := by
    rw [Version.applyEdit_eq_self h.layered.canonical rfl rfl]
    exact h
  saved := fun _ => ⟨rfl, hlen⟩
  sequence := ⟨Nat.zero_le _, by omega⟩

omit [Inhabited K] in
theorem fresh (h : Recovered full v d vs base st H)
    (hnum : ∀ l, ∀ g ∈ v.files l, g.number < vs.nextFileNumber) : v.Fresh st.edit :=
  Version.fresh_of_numbers h.nodup fun p hp l g hg =>
    (hnum l g hg).trans_le (h.files p hp).2.1

omit [Inhabited K] in
theorem number_lt (h : Recovered full v d vs base st H)
    (hnum : ∀ l, ∀ g ∈ v.files l, g.number < vs.nextFileNumber) {l : Nat} {g : FileMetaData K}
    (hg : g ∈ (v.applyEdit st.edit).files l) : g.number < st.versions.nextFileNumber := by
  obtain hnew | hold := Version.new_or_old_of_mem (h.fresh hnum) hg
  · exact (h.files _ hnew).2.2
  · exact (hnum l g hold).trans_le h.next_le

theorem table (h : Recovered full v d vs base st H) (cfg : Config K V) (hv : v.Canonical)
    (hnum : ∀ l, ∀ g ∈ v.files l, g.number < vs.nextFileNumber) {file : LogFile (WriteBatch K V)}
    {n : Nat} (hfile : st.disk.logs.lookup n = some file)
    (hrec : Numbered (H.length + 1) file.records) (hne : file.records.flatMap WriteBatch.ops ≠ []) :
    Recovered full v d vs base (recoverLogFile cfg st n)
      (H ++ file.records.flatMap WriteBatch.ops) := by
  have hmem : file.records.foldl (fun (mem : MemTable K V) b => mem.addAll b.entries) [] =
      memOf (H.length + 1) (file.records.flatMap WriteBatch.ops) :=
    foldl_addAll_memOf [] hrec
  have hseq := foldl_maxSequence hrec h.sequence.1 h.sequence.2
  unfold recoverLogFile
  rw [hfile]
  dsimp only
  rw [if_pos (length_pos_iff.mpr hne), hmem, VersionSet.markFileNumberUsed_eq]
  generalize file.records.flatMap WriteBatch.ops = ops at hne hseq ⊢
  generalize hf : buildTable cfg st.versions.nextFileNumber (memOf (H.length + 1) ops) = f
  have hfn : f.number = st.versions.nextFileNumber := by rw [← hf]; rfl
  have hempty : (memOf (H.length + 1) ops).isEmpty = false := by
    rw [isEmpty_eq_false_iff]
    exact fun heq => hne (memOf_eq_nil_iff.mp heq)
  have hold : ∀ p ∈ st.edit.newFiles, p.2.number < f.number := by
    intro p hp
    rw [hfn]
    exact (h.files p hp).2.2
  have hnodup : ((st.edit.addFile 0 f).newFiles.map fun p => p.2.number).Nodup := by
    unfold VersionEdit.addFile
    rw [map_append, map_singleton, nodup_append]
    refine ⟨h.nodup, nodup_singleton _, ?_⟩
    intro a ha b hb
    obtain ⟨p, hp, rfl⟩ := List.mem_map.mp ha
    rw [mem_singleton.mp hb]
    exact (hold p hp).ne
  have hfresh : v.Fresh (st.edit.addFile 0 f) := by
    refine Version.fresh_of_numbers hnodup ?_
    intro p hp l g hg
    obtain hp | hp := mem_append.mp hp
    · exact (hnum l g hg).trans_le (h.files p hp).2.1
    · rw [mem_singleton.mp hp, hfn]
      exact (hnum l g hg).trans_le h.next_le
  unfold buildTableOn
  rw [hempty, if_neg Bool.false_ne_true]
  dsimp only
  rw [max_self]
  refine ⟨?_, ?_, ?_, ?_, ?_, ?_, hnodup, ?_, fun hs => absurd hs Bool.noConfusion, ?_⟩
  · rw [h.versions]
  · exact h.next_le.trans (Nat.le_succ _)
  · exact h.agrees.trans (.finishTable _ _ h.next_le)
  · intro x hx
    obtain hx | hx := mem_append.mp hx
    · exact h.passed x hx
    · obtain rfl | hx := mem_cons.mp hx
      · exact h.agrees
      · rw [mem_singleton.mp hx]
        exact h.agrees.trans (.clearTable _ h.next_le)
  · rw [h.edit]
    rfl
  · intro p hp
    obtain hp | hp := mem_append.mp hp
    · obtain ⟨h0, h1, h2⟩ := h.files p hp
      exact ⟨h0, h1, h2.trans (Nat.lt_succ_self _)⟩
    · simp_all [h.next_le]
  · rw [Disk.store_finishTable, ← hfn]
    refine h.holds.add (Version.mem_applyEdit_addFile (by decide) hfresh)
      (Version.applyEdit_canonical hv hfresh) ?_ ?_ (writeTable_memOf cfg _ ops)
      (fun hpos => absurd hpos (lt_irrefl 0))
    · intro l g hg
      rw [hfn]
      exact h.number_lt hnum hg
    · rw [← hf]
      exact describes_buildTable hne
  · rw [length_append]
    exact hseq

theorem step (h : Recovered full v d vs base st H) (cfg : Config K V) (hv : v.Canonical)
    (hnum : ∀ l, ∀ g ∈ v.files l, g.number < vs.nextFileNumber) {n : Nat}
    (hrec : Numbered (H.length + 1) (recordsOf d.logs n)) :
    Recovered full v d vs base (recoverLogStep cfg st n)
        (H ++ (recordsOf d.logs n).flatMap WriteBatch.ops) ∧
      n < (recoverLogStep cfg st n).versions.nextFileNumber := by
  have hfile : Recovered full v d vs base (recoverLogFile cfg st n)
      (H ++ (recordsOf d.logs n).flatMap WriteBatch.ops) := by
    unfold recordsOf at hrec ⊢
    rw [← h.agrees.logs] at hrec ⊢
    cases hlook : st.disk.logs.lookup n with
    | none =>
      unfold recoverLogFile
      rw [hlook]
      simpa using h
    | some file =>
      rw [hlook, Option.elim_some] at hrec
      by_cases hne : file.records.flatMap WriteBatch.ops = []
      · -- no operations: only the sequence number may move
        have hseq := foldl_maxSequence hrec h.sequence.1 h.sequence.2
        unfold recoverLogFile
        rw [hlook]
        dsimp only [Option.elim_some]
        rw [hne] at hseq ⊢
        rw [if_neg (by simp), append_nil]
        exact { h with sequence := hseq }
      · exact h.table cfg hv hnum hlook hrec hne
  unfold recoverLogStep
  dsimp only
  rw [VersionSet.markFileNumberUsed_eq]
  refine ⟨⟨?_, ?_, hfile.agrees, hfile.passed, hfile.edit, ?_, hfile.nodup, hfile.holds,
    hfile.saved, hfile.sequence⟩, ?_⟩
  · rw [hfile.versions]
  · exact hfile.next_le.trans (le_max_left _ _)
  · intro p hp
    obtain ⟨h0, h1, h2⟩ := hfile.files p hp
    exact ⟨h0, h1, h2.trans_le (le_max_left _ _)⟩
  · dsimp only
    omega

theorem next_le_foldl (cfg : Config K V) (ns : List Nat) (st : Recovering K V) :
    st.versions.nextFileNumber ≤ (ns.foldl (recoverLogStep cfg) st).versions.nextFileNumber := by
  induction ns generalizing st with
  | nil => exact le_refl _
  | cons n ns ih => exact (next_le_recoverLogStep cfg st n).trans (ih _)

theorem run {ns : List Nat} (h : Recovered full v d vs base st H) (cfg : Config K V)
    (hv : v.Canonical)
    (hnum : ∀ l, ∀ g ∈ v.files l, g.number < vs.nextFileNumber)
    (hrec : Numbered (H.length + 1) (ns.flatMap (recordsOf d.logs))) :
    Recovered full v d vs base (ns.foldl (recoverLogStep cfg) st)
        (H ++ (ns.flatMap (recordsOf d.logs)).flatMap WriteBatch.ops) ∧
      ∀ n ∈ ns, n < (ns.foldl (recoverLogStep cfg) st).versions.nextFileNumber := by
  induction ns generalizing st H with
  | nil => exact ⟨by simpa using h, fun _ hn => absurd hn not_mem_nil⟩
  | cons n ns ih =>
    rw [flatMap_cons, numbered_append] at hrec
    obtain ⟨hstep, hn⟩ := h.step cfg hv hnum hrec.1
    have hrest : Numbered ((H ++ (recordsOf d.logs n).flatMap WriteBatch.ops).length + 1)
        (ns.flatMap (recordsOf d.logs)) := by
      rw [length_append, Nat.add_right_comm]
      exact hrec.2
    obtain ⟨hrun, hns⟩ := ih hstep hrest
    rw [foldl_cons, flatMap_cons, flatMap_append, ← append_assoc]
    refine ⟨hrun, ?_⟩
    intro k hk
    obtain rfl | hk := mem_cons.mp hk
    · exact hn.trans_le (next_le_foldl cfg ns _)
    · exact hns k hk

end Recovered

/-- **Reading the logs.** -/
theorem recoverLogs_spec (cfg : Config K V) (hholds : Holds full v d.store H)
    (hprev : vs.prevLogNumber = 0)
    (hnum : ∀ l, ∀ g ∈ v.files l, g.number < vs.nextFileNumber)
    (hrec : Numbered (H.length + 1) (liveRecords d.logs vs.logNumber)) :
    Recovered full v d vs H.length (recoverLogs cfg d vs)
        (H ++ (liveRecords d.logs vs.logNumber).flatMap WriteBatch.ops) ∧
      ∀ n ∈ d.logs.keys, vs.logNumber ≤ n →
        n < (recoverLogs cfg d vs).versions.nextFileNumber := by
  unfold recoverLogs liveRecords
  rw [hprev]
  obtain ⟨hrun, hns⟩ := (Recovered.init hholds rfl).run cfg hholds.layered.canonical
    hnum hrec
  exact ⟨hrun, fun n hn hle => hns n (mem_liveLogs.mpr ⟨hn, hle⟩)⟩

end Spec

end LevelDB
