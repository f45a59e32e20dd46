/-
  Reading the write-ahead logs as files of bytes (`DBImpl::Recover` and
  `DBImpl::RecoverLogFile`, `db/db_impl.cc`).

  `InsertInto` adds the operations of a record to the memtable one by one while it decodes them.
  When it returns an error nothing is taken back; `RecoverLogFile` only does not count the
  record. No option is looked at.
-/
import LevelDB.Db.BatchCodec
import LevelDB.Log.ReadBack
import LevelDB.Util.Crc32c

namespace LevelDB

open List Log SortedList

variable {K : Type} [LinearOrder K]

/-! ## One log -/

def recordsIn (crc : Checksum) (file : Bytes) : List Bytes :=
  (readLog crc true file).elim [] fun (records, _) => records.map Prod.snd

/-- The variables of `RecoverLogFile`, with `*max_sequence`. -/
structure LogScan (K : Type) [LinearOrder K] where
  mem : MemTable K Bytes
  count : Int
  maxSequence : Nat

section Scan

variable (crc : Checksum) (keys : KeyCodec K)

/-- One record in the loop of `RecoverLogFile`. Sequence numbers are `uint64_t`. -/
def scanRecord (st : LogScan K) (record : Bytes) : LogScan K :=
  if record.length < kHeader then st
  else
    let (mem, error) := insertInto keys record st.mem
    match error with
    | some _ => { st with mem := mem }
    | none =>
      let lastSeq := (((batchSequence record : Int) + batchCount record - 1) % 2 ^ 64).toNat
      { mem := mem
        count := st.count + batchCount record
        maxSequence := if st.maxSequence < lastSeq then lastSeq else st.maxSequence }

/-- The loop of `RecoverLogFile`. -/
def scanLog (maxSequence : Nat) (file : Bytes) : LogScan K :=
  (recordsIn crc file).foldl (scanRecord keys) ⟨[], 0, maxSequence⟩

/-- `LastSequence` at the end of `Recover`, after the logs. -/
def recoveredSequence (lastSequence : Nat) (files : List Bytes) : Nat :=
  let maxSequence := files.foldl (fun m file => (scanLog crc keys m file).maxSequence) 0
  if lastSequence < maxSequence then maxSequence else lastSequence

/-- `InsertInto` returns no error. -/
def accepts (record : Bytes) : Bool := (iterate keys record).2.isNone

/-- What `InsertInto` adds for the record, with or without an error. -/
def entriesOf (record : Bytes) : List (Entry K Bytes) :=
  inserted (batchSequence record) (iterate keys record).1

variable {keys}

omit [LinearOrder K] in
theorem length_inserted (n : Nat) (ops : List (Op K Bytes)) :
    (inserted n ops).length = ops.length := by
  induction ops generalizing n with
  | nil => rfl
  | cons op ops ih => rw [inserted, length_cons, ih, length_cons]

theorem length_addAll (mem : MemTable K Bytes) (es : List (Entry K Bytes)) :
    (mem.addAll es).length = mem.length + es.length := by
  induction es generalizing mem with
  | nil => rfl
  | cons e es ih =>
    show ((mem.add e).addAll es).length = _
    rw [ih, MemTable.add, length_insertSorted, length_cons]
    omega

/-- The last sequence number of a record, as a `uint64_t`. -/
def lastSeqOf (keys : KeyCodec K) (record : Bytes) : Nat :=
  (((batchSequence record : Int) + (iterate keys record).1.length - 1) % 2 ^ 64).toNat

theorem scanRecord_rejected (st : LogScan K) {record : Bytes} (h : accepts keys record = false) :
    scanRecord keys st record = { st with mem := st.mem.addAll (entriesOf keys record) } := by
  unfold scanRecord
  split_ifs with hshort
  · unfold entriesOf iterate
    rw [if_pos hshort]
    rfl
  · grind [accepts, insertInto, entriesOf, iterate]

theorem scanRecord_accepted (st : LogScan K) {record : Bytes} (h : accepts keys record = true) :
    scanRecord keys st record =
      { mem := st.mem.addAll (entriesOf keys record)
        count := st.count + (iterate keys record).1.length
        maxSequence := max st.maxSequence (lastSeqOf keys record) } := by
  have herror : (iterate keys record).2 = none := Option.isNone_iff_eq_none.mp h
  obtain ⟨hsize, hcount⟩ := iterate_ok herror
  unfold scanRecord insertInto entriesOf lastSeqOf
  rw [if_neg hsize, hcount]
  generalize iterate keys record = result at herror ⊢
  obtain ⟨ops, error⟩ := result
  obtain rfl : error = none := herror
  dsimp only
  congr 1
  split_ifs with hlt
  · rw [Nat.max_eq_right hlt.le]
  · rw [Nat.max_eq_left (not_lt.mp hlt)]

theorem scanRecord_mem (st : LogScan K) (record : Bytes) :
    (scanRecord keys st record).mem = st.mem.addAll (entriesOf keys record) := by
  cases h : accepts keys record with
  | false => rw [scanRecord_rejected st h]
  | true => rw [scanRecord_accepted st h]

theorem scan_mem (records : List Bytes) (st : LogScan K) :
    (records.foldl (scanRecord keys) st).mem =
      st.mem.addAll (records.flatMap (entriesOf keys)) := by
  induction records generalizing st with
  | nil => rfl
  | cons record records ih =>
    rw [foldl_cons, ih, scanRecord_mem, flatMap_cons, MemTable.addAll_append]

theorem scan_count (records : List Bytes) (st : LogScan K) :
    (records.foldl (scanRecord keys) st).count =
      st.count + ((records.filter (accepts keys)).flatMap fun r => (iterate keys r).1).length := by
  induction records generalizing st with
  | nil => exact (Int.add_zero _).symm
  | cons record records ih =>
    rw [foldl_cons, ih]
    cases h : accepts keys record with
    | false => rw [filter_cons_of_neg (by simp [h]), scanRecord_rejected st h]
    | true =>
      rw [filter_cons_of_pos h, scanRecord_accepted st h, flatMap_cons,
        length_append]
      push_cast
      omega

end Scan

/-! ## Logs of batches -/

section Batches

variable {crc : Checksum} {keys : KeyCodec K}

end Batches

/-! ## Rejected records -/

section Rejected

variable {crc : Checksum} {keys : KeyCodec K}

theorem length_filter_flatMap {α β : Type} (f : α → List β) (p : α → Bool) (l : List α) :
    ((l.filter p).flatMap f).length ≤ (l.flatMap f).length ∧
      (((l.filter p).flatMap f).length = (l.flatMap f).length →
        ∀ a ∈ l, p a = false → f a = []) := by
  induction l with
  | nil => simp
  | cons a l ih =>
    obtain ⟨hle, heq⟩ := ih
    rw [flatMap_cons, length_append]
    cases h : p a with
    | true =>
      simp_all
    | false =>
      rw [filter_cons_of_neg (by simp [h])]
      refine ⟨by omega, ?_⟩
      intro hlen x hx hpx
      obtain rfl | hx := mem_cons.mp hx
      · exact eq_nil_of_length_eq_zero (by omega)
      · exact heq (by omega) x hx hpx

theorem flatMap_filter_of_nil {α β : Type} {f : α → List β} {p : α → Bool} {l : List α}
    (h : ∀ a ∈ l, p a = false → f a = []) : (l.filter p).flatMap f = l.flatMap f := by
  induction l with
  | nil => rfl
  | cons a l ih =>
    grind

theorem scan_mem_filter_iff (records : List Bytes) (st : LogScan K) :
    (records.foldl (scanRecord keys) st).mem =
        ((records.filter (accepts keys)).foldl (scanRecord keys) st).mem ↔
      ∀ record ∈ records, accepts keys record = false → (iterate keys record).1 = [] := by
  have hnil : ∀ record, entriesOf keys record = [] ↔ (iterate keys record).1 = [] := by
    intro record
    rw [← length_eq_zero_iff, ← length_eq_zero_iff, entriesOf, length_inserted]
  rw [scan_mem, scan_mem]
  constructor
  · intro heq record hrecord hrejected
    have hlen := congrArg List.length heq
    rw [length_addAll, length_addAll] at hlen
    exact (hnil record).mp ((length_filter_flatMap (entriesOf keys) (accepts keys) records).2
      (by omega) record hrecord hrejected)
  · simp_all [flatMap_filter_of_nil]

omit [LinearOrder K] in
theorem forall_inserted {p : Nat → Prop} {n : Nat} {ops : List (Op K Bytes)} :
    (∀ e ∈ inserted n ops, p e.sequence) ↔ ∀ i < ops.length, p ((n + i) % 2 ^ 56) := by
  induction ops generalizing n with
  | nil => simp [inserted]
  | cons op ops ih =>
    rw [inserted, forall_mem_cons, Op.entry_sequence, ih, length_cons,
      Nat.forall_lt_succ_left]
    simp only [Nat.add_zero, Nat.add_assoc, Nat.add_comm 1]

def NumbersUpTo (keys : KeyCodec K) (record : Bytes) (lastSequence : Nat) : Prop :=
  ∀ i < (iterate keys record).1.length, (batchSequence record + i) % 2 ^ 56 ≤ lastSequence

omit [LinearOrder K] in
theorem numbersUpTo_iff {record : Bytes} {lastSequence : Nat} :
    (∀ e ∈ entriesOf keys record, e.sequence ≤ lastSequence) ↔
      NumbersUpTo keys record lastSequence :=
  forall_inserted (p := (· ≤ lastSequence))

end Rejected

/-! ## A record that is recovered in part -/

def partLog : Bytes :=
  logFile crc32c [WriteBatch.rep .bytes ⟨1, [.put [98] [1]]⟩,
    WriteBatch.rep .bytes ⟨2, [.put [97] [2]]⟩ ++ [9]]

/-- The option of `Options` that is meant for damaged files. -/
structure Options where
  paranoidChecks : Bool

/-- The errors of the file system that `Recover` meets after it has read the manifest: of
    `GetChildren`, of `BuildTable` for each log, and of `LogAndApply`. -/
structure RecoverEnv where
  getChildren : Option Status
  buildTable : Nat → Option Status
  logAndApply : Option Status

/-- What `Recover` makes of the logs: a level-0 table for each log that holds a batch, and
    `LastSequence`. -/
structure RecoveredLogs (K : Type) [LinearOrder K] where
  tables : List (MemTable K Bytes)
  lastSequence : Nat

section Paranoid

variable (crc : Checksum) (keys : KeyCodec K) (env : RecoverEnv)

/-- The loop of `Recover` over the logs, with their indices. -/
def recoverLoop : Nat → Nat → List Bytes → Except Status (RecoveredLogs K)
  | _, maxSequence, [] => .ok ⟨[], maxSequence⟩
  | i, maxSequence, file :: files =>
    let scan := scanLog crc keys maxSequence file
    if 0 < scan.count then
      match env.buildTable i with
      | some s => .error s
      | none =>
        match recoverLoop (i + 1) scan.maxSequence files with
        | .error s => .error s
        | .ok r => .ok ⟨scan.mem :: r.tables, r.lastSequence⟩
    else recoverLoop (i + 1) scan.maxSequence files

/-- `DBImpl::Recover` after `VersionSet::Recover`, with the logs that can be opened in the order of
    their numbers. The options are not looked at. -/
def recoverFromLogs (_options : Options) (lastSequence : Nat) (files : List Bytes) :
    Except Status (RecoveredLogs K) :=
  match env.getChildren with
  | some s => .error s
  | none =>
    match recoverLoop crc keys env 0 0 files with
    | .error s => .error s
    | .ok r =>
      let lastSequence := if lastSequence < r.lastSequence then r.lastSequence else lastSequence
      if r.tables.isEmpty then .ok ⟨r.tables, lastSequence⟩
      else
        match env.logAndApply with
        | some s => .error s
        | none => .ok ⟨r.tables, lastSequence⟩

def HoldsBatch (file : Bytes) : Prop := 0 < (scanLog crc keys 0 file).count

/-- `BuildTable` fails for a log with a batch; the first log has index `i`. -/
def RecoverEnv.TableFails (i : Nat) (files : List Bytes) : Prop :=
  ∃ j file, files[j]? = some file ∧ HoldsBatch crc keys file ∧ (env.buildTable (i + j)).isSome

def RecoverEnv.Fails (files : List Bytes) : Prop :=
  env.getChildren.isSome ∨ env.TableFails crc keys 0 files ∨
    (env.logAndApply.isSome ∧ ∃ file ∈ files, HoldsBatch crc keys file)

/-- Replaying the logs makes the reader report a dropped range, or yields a record that is shorter
    than a header or that `InsertInto` rejects. -/
def Damaged (files : List Bytes) : Prop :=
  ∃ file ∈ files, (∃ out reports, readLog crc true file = some (out, reports) ∧ reports ≠ []) ∨
    ∃ record ∈ recordsIn crc file, record.length < kHeader ∨ accepts keys record = false

variable {crc keys env}

theorem scanLog_count (m : Nat) (file : Bytes) :
    (scanLog crc keys m file).count = (scanLog crc keys 0 file).count := by
  unfold scanLog
  rw [scan_count, scan_count]

theorem tableFails_cons (i : Nat) (file : Bytes) (files : List Bytes) :
    env.TableFails crc keys i (file :: files) ↔
      (HoldsBatch crc keys file ∧ (env.buildTable i).isSome) ∨
        env.TableFails crc keys (i + 1) files := by
  constructor
  · rintro ⟨j, f, hf, hholds, hfails⟩
    cases j with
    | zero =>
      obtain rfl : file = f := by simpa using hf
      exact .inl ⟨hholds, hfails⟩
    | succ j =>
      refine .inr ⟨j, f, by simpa using hf, hholds, ?_⟩
      rwa [Nat.add_assoc, Nat.add_comm 1 j]
  · rintro (⟨hholds, hfails⟩ | ⟨j, f, hf, hholds, hfails⟩)
    · exact ⟨0, file, rfl, hholds, hfails⟩
    · refine ⟨j + 1, f, by simpa using hf, hholds, ?_⟩
      rwa [Nat.add_comm j 1, ← Nat.add_assoc]

theorem recoverLoop_spec (files : List Bytes) (i m : Nat) :
    match recoverLoop crc keys env i m files with
    | .error _ => env.TableFails crc keys i files
    | .ok r => ¬env.TableFails crc keys i files ∧
        (r.tables = [] ↔ ∀ file ∈ files, ¬HoldsBatch crc keys file) := by
  induction files generalizing i m with
  | nil =>
    refine ⟨?_, by simp⟩
    rintro ⟨j, file, hf, -⟩
    simp at hf
  | cons file files ih =>
    have hholds : 0 < (scanLog crc keys m file).count ↔ HoldsBatch crc keys file := by
      rw [scanLog_count, HoldsBatch]
    have hrest := ih (i + 1) (scanLog crc keys m file).maxSequence
    rw [tableFails_cons, forall_mem_cons]
    unfold recoverLoop
    by_cases hcount : 0 < (scanLog crc keys m file).count
    · grind
    · grind

theorem recover_error_iff (options : Options) (lastSequence : Nat) (files : List Bytes) :
    (∃ s, recoverFromLogs crc keys env options lastSequence files = .error s) ↔
      env.Fails crc keys files := by
  have hloop := @recoverLoop_spec K _ crc keys env files 0 0
  unfold recoverFromLogs RecoverEnv.Fails
  cases env.getChildren with
  | some s => simp
  | none =>
    cases hr : recoverLoop crc keys env 0 0 files with
    | error s =>
      rw [hr] at hloop
      simp [hloop]
    | ok r =>
      rw [hr] at hloop
      obtain ⟨hno, htables⟩ := hloop
      by_cases hempty : r.tables = []
      · have hnone := htables.mp hempty
        simp [hempty, hno]
        grind
      · have hsome : ∃ file ∈ files, HoldsBatch crc keys file := by
          by_contra h
          exact hempty (htables.mpr fun file hf hh => h ⟨file, hf, hh⟩)
        cases env.logAndApply <;> simp [hempty, hno, hsome]

end Paranoid

/-- With `paranoid_checks` set, damage to the logs makes `Recover` fail exactly when there is none
    or the file system fails. -/
theorem recover_paranoid_iff (crc : Checksum) (keys : KeyCodec K) (env : RecoverEnv)
    (lastSequence : Nat) (files : List Bytes) :
    (Damaged crc keys files →
        ∃ s, recoverFromLogs crc keys env ⟨true⟩ lastSequence files = .error s) ↔
      ¬Damaged crc keys files ∨ env.Fails crc keys files := by
  rw [recover_error_iff, imp_iff_not_or]

def firstLog : Bytes := logFile crc32c [WriteBatch.rep .bytes ⟨1, [.put [97] [1]]⟩]

def secondLog : Bytes := logFile crc32c [WriteBatch.rep .bytes ⟨2, [.put [98] [2]]⟩]

/-- With one byte of the first log changed, the reader reports the damage, and the database is
    opened with the later batch and without the earlier one. -/
theorem paranoid_open_loses :
    (readLog crc32c true (firstLog.set 23 7)).map Prod.snd =
        some [(24, .corruptionErr "checksum mismatch")] ∧
      ∃ r, recoverFromLogs (K := Bytes) crc32c .bytes ⟨none, fun _ => none, none⟩ ⟨true⟩ 0
          [firstLog.set 23 7, secondLog] = .ok r ∧
        r.tables = [[Op.entry (.put [98] [2]) 2]] ∧ r.lastSequence = 2 := by
  refine ⟨by decide +kernel, ?_⟩
  have hopen : (recoverFromLogs (K := Bytes) crc32c .bytes ⟨none, fun _ => none, none⟩ ⟨true⟩ 0
      [firstLog.set 23 7, secondLog]).toOption.map (fun r => (r.tables, r.lastSequence)) =
      some ([[Op.entry (.put [98] [2]) 2]], 2) := by
    decide +kernel
  generalize recoverFromLogs (K := Bytes) crc32c .bytes ⟨none, fun _ => none, none⟩ ⟨true⟩ 0
      [firstLog.set 23 7, secondLog] = result at hopen ⊢
  cases result with
  | error s => cases hopen
  | ok r =>
    obtain ⟨htables, hlast⟩ := Prod.mk.inj (Option.some.inj hopen)
    exact ⟨r, rfl, htables, hlast⟩

end LevelDB
