/-
  Repairing a database (`RepairDB`, `db/repair.cc`), with intact tables and logs and without
  I/O errors.

  `Repairer` turns every log into a table, in the order in which `GetChildren` lists the logs,
  and writes a manifest that puts all tables, old and new, into level 0. There `Get` asks the
  table with the largest number first, whatever the sequence numbers in it.
-/
import LevelDB.Db.Durability

namespace LevelDB

open List Function SortedList

variable {K V : Type} [LinearOrder K]

/-! ## The repairer -/

/-- A name that `ParseFileName` understands. `other` is for CURRENT, LOCK, LOG (with number 0)
    and temporary files. -/
inductive FileName where
  | descriptor (number : Nat)
  | log (number : Nat)
  | table (number : Nat)
  | other (number : Nat)
  deriving DecidableEq

/-- `class Repairer`. -/
structure Repairer (K V : Type) [LinearOrder K] where
  disk : Disk K V
  manifests : List Nat
  tableNumbers : List Nat
  logs : List Nat
  nextFileNumber : Nat

/-- `struct TableInfo`. -/
structure TableInfo (K : Type) where
  metaData : FileMetaData K
  maxSequence : Nat

namespace Repairer

def useNumber (r : Repairer K V) (number : Nat) : Repairer K V :=
  if r.nextFileNumber < number + 1 then { r with nextFileNumber := number + 1 } else r

/-- One name in the loop of `FindFiles`. -/
def find (r : Repairer K V) : FileName → Repairer K V
  | .descriptor n => { r with manifests := r.manifests ++ [n] }
  | .log n => { r.useNumber n with logs := r.logs ++ [n] }
  | .table n => { r.useNumber n with tableNumbers := r.tableNumbers ++ [n] }
  | .other n => r.useNumber n

/-- `FindFiles`, on what `GetChildren` lists. -/
def findFiles (dbname : String) (d : Disk K V) (children : List FileName) :
    Except Status (Repairer K V) :=
  if children.isEmpty then .error (.ioError (dbname ++ ": repair found no files"))
  else .ok (children.foldl find ⟨d, [], [], [], 1⟩)

variable [Inhabited K] [Inhabited V]

/-- `ConvertLogToTable`. The number is used up also when the log holds nothing. -/
def convertLogToTable (cfg : Config K V) (r : Repairer K V) (n : Nat) : Repairer K V :=
  match r.disk.logs.lookup n with
  | none => r
  | some file =>
    let mem := file.records.foldl (fun (mem : MemTable K V) b => mem.addAll b.entries) []
    let number := r.nextFileNumber
    { r with
      disk := (buildTableOn cfg r.disk number mem).2
      nextFileNumber := number + 1
      tableNumbers := if 0 < (buildTable cfg number mem).fileSize then r.tableNumbers ++ [number]
        else r.tableNumbers }

/-- `ArchiveFile`, for a log. -/
def archiveLog (r : Repairer K V) (n : Nat) : Repairer K V :=
  { r with disk := { r.disk with logs := r.disk.logs.erase n } }

def convertLogFilesToTables (cfg : Config K V) (r : Repairer K V) : Repairer K V :=
  r.logs.foldl (fun r n => (r.convertLogToTable cfg n).archiveLog n) r

omit [Inhabited V]

def scanTable (cfg : Config K V) (d : Disk K V) (n : Nat) : Option (TableInfo K) :=
  (d.tables n).map fun t =>
    { metaData :=
        { number := n
          fileSize := cfg.fileSize t.entries
          smallest := (t.entries.head?.map Entry.key).getD .cleared
          largest := (t.entries.getLast?.map Entry.key).getD .cleared }
      maxSequence := t.entries.foldl (fun m e => if m < e.sequence then e.sequence else m) 0 }

def extractMetaData (cfg : Config K V) (r : Repairer K V) : List (TableInfo K) :=
  r.tableNumbers.filterMap (scanTable cfg r.disk)

omit [Inhabited K]

/-- The record of `WriteDescriptor`. -/
def descriptorEdit (cfg : Config K V) (r : Repairer K V) (tables : List (TableInfo K)) :
    VersionEdit K where
  comparator := some cfg.comparatorName
  logNumber := some 0
  nextFileNumber := some r.nextFileNumber
  lastSequence := some (tables.foldl (fun m t => if m < t.maxSequence then t.maxSequence else m) 0)
  newFiles := tables.map fun t => (0, t.metaData)

/-- `WriteDescriptor`: the manifests are archived, and MANIFEST-000001 and CURRENT are written.
    The manifest is not synced. -/
def writeDescriptor (cfg : Config K V) (r : Repairer K V) (tables : List (TableInfo K)) :
    Disk K V :=
  let archived := { r.disk with
    manifests := fun m => if m ∈ r.manifests then none else r.disk.manifests m }
  (archived.setManifest 1 (LogFile.empty.append (r.descriptorEdit cfg tables))).setCurrent 1

end Repairer

def repairDb [Inhabited K] [Inhabited V] (cfg : Config K V) (dbname : String) (d : Disk K V)
    (children : List FileName) : Except Status (Disk K V) :=
  match Repairer.findFiles dbname d children with
  | .error s => .error s
  | .ok r =>
    let r := r.convertLogFilesToTables cfg
    .ok (r.writeDescriptor cfg (r.extractMetaData cfg))

/-! ## What is in the directory -/

/-- `GetChildren` lists the files of the directory, in any order. -/
structure Disk.Lists (d : Disk K V) (children : List FileName) : Prop where
  nodup : children.Nodup
  logs : ∀ n, .log n ∈ children ↔ n ∈ d.logs
  tables : ∀ n, .table n ∈ children ↔ (d.tables n).isSome

def Disk.LogsIntact [Inhabited V] (d : Disk K V) : Prop :=
  ∀ n file, d.logs.lookup n = some file →
    (file.records.flatMap WriteBatch.entries).Pairwise fun a b => a.sequence ≠ b.sequence

def Table.OneEntryPerSequence (t : Table K V) : Prop :=
  ∀ a ∈ t.entries, ∀ b ∈ t.entries, a.sequence = b.sequence → a = b

def Disk.tableEntries (d : Disk K V) : Set (Entry K V) :=
  {e | ∃ n t, d.tables n = some t ∧ e ∈ t.entries}

def Disk.salvaged [Inhabited V] (d : Disk K V) : Set (Entry K V) :=
  {e | e ∈ d.tableEntries ∨ ∃ n file, d.logs.lookup n = some file ∧
    e ∈ file.records.flatMap WriteBatch.entries}

structure Disk.TopTable (d : Disk K V) (k : K) (n : Nat) (t : Table K V) : Prop where
  table : d.tables n = some t
  holds : ∃ e ∈ t.entries, e.userKey = k
  top : ∀ m u, d.tables m = some u → (∃ e ∈ u.entries, e.userKey = k) → m ≤ n

/-! ## Finding files -/

def FileName.log? : FileName → Option Nat
  | .log n => some n
  | _ => none

def FileName.table? : FileName → Option Nat
  | .table n => some n
  | _ => none

theorem FileName.log?_eq_some {name : FileName} {n : Nat} :
    name.log? = some n ↔ name = .log n := by
  cases name <;> simp [log?]

theorem FileName.table?_eq_some {name : FileName} {n : Nat} :
    name.table? = some n ↔ name = .table n := by
  cases name <;> simp [table?]

namespace Repairer

/-- The loop of `FindFiles` has gone through `seen`. -/
structure Found (d : Disk K V) (seen : List FileName) (r : Repairer K V) : Prop where
  disk : r.disk = d
  logs : r.logs = seen.filterMap FileName.log?
  tables : r.tableNumbers = seen.filterMap FileName.table?
  next : ∀ n, .table n ∈ seen → n < r.nextFileNumber

theorem useNumber_eq (r : Repairer K V) (n : Nat) :
    r.useNumber n = { r with nextFileNumber := max r.nextFileNumber (n + 1) } := by
  unfold useNumber
  split_ifs with h
  · rw [max_eq_right h.le]
  · rw [max_eq_left (not_lt.mp h)]

theorem Found.step {d : Disk K V} {seen : List FileName} {r : Repairer K V} (h : Found d seen r)
    (name : FileName) : Found d (seen ++ [name]) (r.find name) := by
  have hnext : ∀ n m, .table n ∈ seen → n < max r.nextFileNumber m := fun n m hn =>
    (h.next n hn).trans_le (le_max_left _ _)
  have hseen : ∀ n, .table n ∈ seen ++ [name] ↔ .table n ∈ seen ∨ .table n = name := by
    intro n
    rw [mem_append, mem_singleton]
  cases name with
  | descriptor m =>
    refine ⟨h.disk, by simp [find, h.logs, FileName.log?], by simp [find, h.tables, FileName.table?], ?_⟩
    intro n hn
    exact h.next n (((hseen n).mp hn).resolve_right (by simp))
  | log m =>
    refine ⟨?_, by simp [find, h.logs, FileName.log?], ?_, ?_⟩
    · rw [find, useNumber_eq]
      exact h.disk
    · rw [find, useNumber_eq]
      simp [h.tables, FileName.table?]
    · intro n hn
      rw [find, useNumber_eq]
      exact hnext n _ (((hseen n).mp hn).resolve_right (by simp))
  | table m =>
    refine ⟨?_, ?_, by simp [find, h.tables, FileName.table?], ?_⟩
    · rw [find, useNumber_eq]
      exact h.disk
    · rw [find, useNumber_eq]
      simp [h.logs, FileName.log?]
    · intro n hn
      rw [find, useNumber_eq]
      obtain hn | hn := (hseen n).mp hn
      · exact hnext n _ hn
      · obtain rfl : n = m := by simpa using hn
        exact lt_max_of_lt_right (Nat.lt_succ_self n)
  | other m =>
    rw [find, useNumber_eq]
    refine ⟨h.disk, by simp [h.logs, FileName.log?], by simp [h.tables, FileName.table?], ?_⟩
    intro n hn
    exact hnext n _ (((hseen n).mp hn).resolve_right (by simp))

theorem found_foldl {d : Disk K V} (names : List FileName) {seen : List FileName}
    {r : Repairer K V} (h : Found d seen r) : Found d (seen ++ names) (names.foldl find r) := by
  induction names generalizing seen r with
  | nil => simpa using h
  | cons name names ih =>
    rw [foldl_cons, ← singleton_append, ← append_assoc]
    exact ih (h.step name)

theorem findFiles_found {dbname : String} {d : Disk K V} {children : List FileName}
    {r : Repairer K V} (h : findFiles dbname d children = .ok r) : Found d children r := by
  unfold findFiles at h
  split_ifs at h
  injection h with h
  rw [← h]
  have hstart : Found d [] (⟨d, [], [], [], 1⟩ : Repairer K V) :=
    ⟨rfl, rfl, rfl, fun _ hn => absurd hn not_mem_nil⟩
  exact found_foldl children hstart

/-! ## Converting logs -/

section Convert

variable [Inhabited K] [Inhabited V] {d : Disk K V} {done : List Nat} {r : Repairer K V}

/-- The logs in `done` have been converted. -/
structure Converting (d : Disk K V) (done : List Nat) (r : Repairer K V) : Prop where
  logs : ∀ n, r.disk.logs.lookup n = if n ∈ done then none else d.logs.lookup n
  tables : ∀ n, n ∈ r.tableNumbers ↔ (r.disk.tables n).isSome
  below : ∀ n ∈ r.tableNumbers, n < r.nextFileNumber
  nodup : r.tableNumbers.Nodup
  entries : ∀ e, e ∈ r.disk.tableEntries ↔ e ∈ d.tableEntries ∨
    ∃ n ∈ done, ∃ file, d.logs.lookup n = some file ∧ e ∈ file.records.flatMap WriteBatch.entries
  kept : ∀ n t, d.tables n = some t → r.disk.tables n = some t
  converted : ∀ n t, d.tables n = none → r.disk.tables n = some t → t.OneEntryPerSequence

omit [Inhabited K] [Inhabited V] in
theorem mem_tableEntries_update {disk disk' : Disk K V} {n : Nat} {o : Option (Table K V)}
    (hfree : disk.tables n = none) (h : disk'.tables = Function.update disk.tables n o)
    (e : Entry K V) :
    e ∈ disk'.tableEntries ↔ e ∈ disk.tableEntries ∨ ∃ t, o = some t ∧ e ∈ t.entries := by
  unfold Disk.tableEntries
  rw [h]
  constructor
  · grind [update_self, update_of_ne]
  · intro h
    obtain ⟨m, t, ht, he⟩ | ⟨t, ht, he⟩ := h
    · have hm : m ≠ n := by
        intro hm
        rw [hm, hfree] at ht
        cases ht
      exact ⟨m, t, by rw [update_of_ne hm]; exact ht, he⟩
    · exact ⟨n, t, by rw [update_self]; exact ht, he⟩

theorem convertLogToTable_spec (cfg : Config K V) {n : Nat} {file : LogFile (WriteBatch K V)}
    (hfile : r.disk.logs.lookup n = some file)
    (hseq : (file.records.flatMap WriteBatch.entries).Pairwise fun a b => a.sequence ≠ b.sequence) :
    (r.convertLogToTable cfg n).nextFileNumber = r.nextFileNumber + 1 ∧
    (r.convertLogToTable cfg n).disk.logs = r.disk.logs ∧
    ∃ o : Option (Table K V),
      (r.convertLogToTable cfg n).disk.tables = Function.update r.disk.tables r.nextFileNumber o ∧
      (r.convertLogToTable cfg n).tableNumbers =
        (if o.isSome then r.tableNumbers ++ [r.nextFileNumber] else r.tableNumbers) ∧
      (∀ e, (∃ t, o = some t ∧ e ∈ t.entries) ↔ e ∈ file.records.flatMap WriteBatch.entries) ∧
      ∀ t, o = some t → t.OneEntryPerSequence := by
  have hmem : file.records.foldl (fun (mem : MemTable K V) b => mem.addAll b.entries) [] =
      MemTable.addAll [] (file.records.flatMap WriteBatch.entries) := MemTable.foldl_addAll _ _
  have hwf : ∀ e ∈ file.records.flatMap WriteBatch.entries, e.key.WellFormed := by
    intro e he
    obtain ⟨b, -, he⟩ := mem_flatMap.mp he
    exact entriesFrom_wellFormed e he
  unfold convertLogToTable
  rw [hfile]
  dsimp only
  rw [hmem]
  generalize file.records.flatMap WriteBatch.entries = es at hseq hwf ⊢
  have hin : ∀ e, e ∈ MemTable.addAll ([] : MemTable K V) es ↔ e ∈ es := by
    intro e
    rw [MemTable.mem_addAll]
    simp
  have hentries := cfg.writeTable_entries (MemTable.addAll [] es)
    (MemTable.addAll_strict List.Pairwise.nil hseq fun _ hx => absurd hx not_mem_nil)
    fun e he => hwf e ((hin e).mp he)
  generalize MemTable.addAll ([] : MemTable K V) es = mem at hin hentries ⊢
  unfold buildTableOn buildTable
  dsimp only
  by_cases hempty : mem.isEmpty = true
  · refine ⟨rfl, by rw [if_pos hempty]; rfl, none, by rw [if_pos hempty]; rfl, ?_, ?_,
      fun t ht => by cases ht⟩
    · rw [if_pos hempty]
      rfl
    · intro e
      rw [← hin, List.isEmpty_iff.mp hempty]
      simp
  · refine ⟨rfl, by rw [if_neg hempty]; rfl, some (cfg.writeTable mem),
      by rw [if_neg hempty]; rfl, ?_, ?_, ?_⟩
    · rw [if_neg hempty, if_pos (cfg.fileSize_pos mem)]
      rfl
    · intro e
      rw [← hin]
      simp [hentries]
    · intro t ht a ha b hb hab
      rw [← Option.some.inj ht, hentries, hin] at ha hb
      by_contra hne
      obtain h | h := pairwise_either hseq ha hb hne
      · exact h hab
      · exact h hab.symm

theorem Converting.step (h : Converting d done r) (hlogs : d.LogsIntact) (cfg : Config K V) {n : Nat}
    (hn : n ∉ done) : Converting d (done ++ [n]) ((r.convertLogToTable cfg n).archiveLog n) := by
  have herase : ∀ s : LogDir K V, (∀ m, s.lookup m = if m ∈ done then none else d.logs.lookup m) →
      ∀ m, (s.erase n).lookup m = if m ∈ done ++ [n] then none else d.logs.lookup m := by
    intro s hs m
    by_cases hm : m = n
    · rw [hm, AList.lookup_erase, if_pos (by simp)]
    · rw [AList.lookup_erase_ne hm, hs]
      simp [hm]
  have hdone : ∀ e : Entry K V, (∃ m ∈ done ++ [n], ∃ file, d.logs.lookup m = some file ∧
        e ∈ file.records.flatMap WriteBatch.entries) ↔
      (∃ m ∈ done, ∃ file, d.logs.lookup m = some file ∧
        e ∈ file.records.flatMap WriteBatch.entries) ∨
      ∃ file, d.logs.lookup n = some file ∧ e ∈ file.records.flatMap WriteBatch.entries := by
    intro e
    simp only [mem_append, mem_singleton, or_and_right, exists_or, exists_eq_left]
  have hlook : r.disk.logs.lookup n = d.logs.lookup n := by rw [h.logs, if_neg hn]
  cases hfile : d.logs.lookup n with
  | none =>
    have hsame : r.convertLogToTable cfg n = r := by
      unfold convertLogToTable
      rw [hlook, hfile]
    rw [hsame]
    refine ⟨herase _ h.logs, h.tables, h.below, h.nodup, ?_, h.kept, h.converted⟩
    intro e
    rw [hdone, hfile, show (r.archiveLog n).disk.tableEntries = r.disk.tableEntries from rfl,
      h.entries]
    simp
  | some file =>
    rw [hfile] at hlook
    obtain ⟨hnext, hl, o, htables, hnumbers, hentries, hone⟩ :=
      convertLogToTable_spec cfg hlook (hlogs n file hfile)
    generalize r.convertLogToTable cfg n = r' at hnext hl htables hnumbers
    have hfresh : r.nextFileNumber ∉ r.tableNumbers := fun hm => lt_irrefl _ (h.below _ hm)
    have hfree : r.disk.tables r.nextFileNumber = none := by
      rw [h.tables, Option.not_isSome_iff_eq_none] at hfresh
      exact hfresh
    refine ⟨herase _ (by rw [hl]; exact h.logs), ?_, ?_, ?_, ?_, ?_, ?_⟩
    · intro m
      show m ∈ r'.tableNumbers ↔ (r'.disk.tables m).isSome
      rw [htables, hnumbers]
      by_cases hm : m = r.nextFileNumber
      · rw [hm, update_self]
        split_ifs with ho
        · simp [ho]
        · simp [ho, hfresh]
      · rw [update_of_ne hm, ← h.tables]
        split_ifs <;> simp [hm]
    · intro m hm
      change m ∈ r'.tableNumbers at hm
      show m < r'.nextFileNumber
      rw [hnumbers] at hm
      rw [hnext]
      have hm' : m ∈ r.tableNumbers ∨ m = r.nextFileNumber := by
        split_ifs at hm
        · simpa using hm
        · exact .inl hm
      obtain hm | rfl := hm'
      · exact (h.below m hm).trans (Nat.lt_succ_self _)
      · exact Nat.lt_succ_self _
    · show r'.tableNumbers.Nodup
      rw [hnumbers]
      split_ifs
      · rw [nodup_append]
        refine ⟨h.nodup, nodup_singleton _, ?_⟩
        intro a ha b hb
        rw [mem_singleton.mp hb]
        exact (h.below a ha).ne
      · exact h.nodup
    · intro e
      rw [hdone, hfile, show (r'.archiveLog n).disk.tableEntries = r'.disk.tableEntries from rfl,
        mem_tableEntries_update hfree htables, h.entries, hentries, or_assoc]
      simp
    · intro m t ht
      show r'.disk.tables m = some t
      have hkept := h.kept m t ht
      rw [htables, update_of_ne]
      · exact hkept
      · intro hm
        rw [hm, hfree] at hkept
        cases hkept
    · intro m t hm ht
      change r'.disk.tables m = some t at ht
      rw [htables] at ht
      by_cases hmn : m = r.nextFileNumber
      · rw [hmn, update_self] at ht
        exact hone t ht
      · rw [update_of_ne hmn] at ht
        exact h.converted m t hm ht

theorem Converting.run (h : Converting d done r) (hlogs : d.LogsIntact) (cfg : Config K V)
    {rest : List Nat} (hnodup : (done ++ rest).Nodup) :
    Converting d (done ++ rest)
      (rest.foldl (fun r n => (r.convertLogToTable cfg n).archiveLog n) r) := by
  induction rest generalizing done r with
  | nil => simpa using h
  | cons n rest ih =>
    have hn : n ∉ done := by
      intro hn
      exact (nodup_append.mp hnodup).2.2 n hn n mem_cons_self rfl
    rw [foldl_cons, ← singleton_append, ← append_assoc]
    rw [← singleton_append, ← append_assoc] at hnodup
    exact ih (h.step hlogs cfg hn) hnodup

end Convert

end Repairer

/-! ## The repaired directory -/

section Repaired

variable [Inhabited K] [Inhabited V] {cfg : Config K V} {dbname : String} {d d' : Disk K V}
  {children : List FileName}

/-- The result of a repair: no logs, tables with all entries, and a manifest of one record with
    all tables at level 0. -/
structure Repaired (cfg : Config K V) (d d' : Disk K V) : Prop where
  noLogs : d'.logs.keys = []
  entries : d'.tableEntries = d.salvaged
  kept : ∀ n t, d.tables n = some t → d'.tables n = some t
  converted : ∀ n t, d.tables n = none → d'.tables n = some t → t.OneEntryPerSequence
  manifest : ∃ (r : Repairer K V), d'.manifestRecords =
      some (1, [r.descriptorEdit cfg (r.extractMetaData cfg)]) ∧ d'.tables = r.disk.tables ∧
    r.tableNumbers.Nodup ∧ ∀ n, n ∈ r.tableNumbers ↔ (d'.tables n).isSome

omit [Inhabited K] in
theorem Repairer.Found.start {r : Repairer K V} (h : Found d children r)
    (hlists : d.Lists children) : Converting d [] r := by
  have htables : ∀ n, n ∈ r.tableNumbers ↔ .table n ∈ children := by
    intro n
    rw [h.tables, mem_filterMap]
    simp only [FileName.table?_eq_some, exists_eq_right]
  refine ⟨?_, ?_, ?_, ?_, ?_, ?_, ?_⟩
  · intro n
    rw [h.disk, if_neg not_mem_nil]
  · intro n
    rw [htables, hlists.tables, h.disk]
  · intro n hn
    exact h.next n ((htables n).mp hn)
  · rw [h.tables]
    refine hlists.nodup.filterMap ?_
    intro a b n ha hb
    rw [FileName.table?_eq_some.mp ha, FileName.table?_eq_some.mp hb]
  · intro e
    rw [h.disk]
    simp
  · intro n t ht
    rw [h.disk]
    exact ht
  · intro n t hn ht
    rw [h.disk, hn] at ht
    cases ht

theorem repaired_tables (hlists : d.Lists children) (hlogs : d.LogsIntact)
    (h : repairDb cfg dbname d children = .ok d') : Repaired cfg d d' := by
  unfold repairDb at h
  cases hfind : Repairer.findFiles dbname d children with
  | error s =>
    rw [hfind] at h
    cases h
  | ok r =>
    rw [hfind] at h
    injection h with h
    have hfound := Repairer.findFiles_found hfind
    have hlog : ∀ n, n ∈ r.logs ↔ n ∈ d.logs := by
      intro n
      rw [hfound.logs, ← hlists.logs, mem_filterMap]
      simp only [FileName.log?_eq_some, exists_eq_right]
    have hnodup : ([] ++ r.logs).Nodup := by
      rw [nil_append, hfound.logs]
      refine hlists.nodup.filterMap ?_
      intro a b n ha hb
      rw [FileName.log?_eq_some.mp ha, FileName.log?_eq_some.mp hb]
    have hconv := (hfound.start hlists).run hlogs cfg hnodup
    rw [nil_append] at hconv
    change Repairer.Converting d r.logs (r.convertLogFilesToTables cfg) at hconv
    generalize r.convertLogFilesToTables cfg = r' at h hconv
    have hd : d'.logs = r'.disk.logs ∧ d'.tables = r'.disk.tables := by
      rw [← h]
      exact ⟨rfl, rfl⟩
    refine ⟨?_, ?_, by rw [hd.2]; exact hconv.kept, by rw [hd.2]; exact hconv.converted, r', ?_,
      hd.2, hconv.nodup, ?_⟩
    · rw [hd.1, eq_nil_iff_forall_not_mem]
      intro n hn
      rw [← AList.mem_keys, ← AList.lookup_isSome, hconv.logs] at hn
      split_ifs at hn with hmem
      · cases hn
      · exact hmem ((hlog n).mpr (AList.lookup_isSome.mp hn))
    · ext e
      have hsame : d'.tableEntries = r'.disk.tableEntries := by
        unfold Disk.tableEntries
        rw [hd.2]
      rw [hsame, hconv.entries]
      refine or_congr_right ⟨?_, ?_⟩
      · intro ⟨n, _, file, hfile, he⟩
        exact ⟨n, file, hfile, he⟩
      · grind [AList.lookup_isSome]
    · rw [← h]
      rfl
    · intro n
      rw [hd.2]
      exact hconv.tables n

omit [Inhabited V] in
theorem recover_single {edit : VersionEdit K} {vs : VersionSet K} {m : Nat}
    (hmanifest : d'.manifestRecords = some (m, [edit]))
    (h : VersionSet.init.recover cfg d' = .ok vs) :
    vs.current = Version.empty.applyEdit edit ∧ edit.decodeError = none ∧
      edit.lastSequence = some vs.lastSequence := by
  unfold VersionSet.recover at h
  rw [hmanifest] at h
  dsimp only at h
  cases hreplay : replay cfg [edit]
      ⟨.empty, VersionSet.init.compactPointer, none, none, none, none⟩ with
  | error s =>
    rw [hreplay] at h
    cases h
  | ok st =>
    obtain ⟨haccepted, hst⟩ := replay_cons_ok hreplay
    injection hst with hst
    have hlast : st.lastSequence = edit.lastSequence := by
      rw [← hst]
      exact Option.or_none
    rw [hreplay] at h
    dsimp only at h
    split at h
    · cases h
    · cases h
    · cases h
    · rename_i last _ _ hl
      injection h with h
      rw [← h, ← hlast, ← hst]
      refine ⟨rfl, haccepted.decodes, ?_⟩
      rw [hst]
      exact hl

theorem open_single {edit : VersionEdit K} {db : Db K V} {m : Nat} (hlogs : d'.logs.keys = [])
    (hmanifest : d'.manifestRecords = some (m, [edit])) (hopen : (openDb cfg d').2 = .ok db) :
    db.mem = [] ∧ db.imm = none ∧ db.disk.tables = d'.tables ∧
      db.versions.current = Version.empty.applyEdit edit ∧
      edit.decodeError = none ∧ edit.lastSequence = some db.versions.lastSequence := by
  obtain ⟨n, hcurrent, -⟩ := Option.bind_eq_some_iff.mp hmanifest
  have hread : ∀ vs : VersionSet K, finishRecovery cfg (recoverLogs cfg d' vs) = ⟨[], d', vs⟩ := by
    intro vs
    unfold recoverLogs liveLogs
    rw [hlogs]
    rfl
  unfold openDb createIfMissing at hopen
  rw [hcurrent] at hopen
  dsimp only at hopen
  cases hrec : VersionSet.init.recover cfg d' with
  | error s =>
    rw [hrec] at hopen
    cases hopen
  | ok vs =>
    obtain ⟨hversion, hdecode, hlast⟩ := recover_single hmanifest hrec
    rw [hrec] at hopen
    dsimp only at hopen
    rw [hread] at hopen
    injection hopen with hopen
    rw [← hopen]
    exact ⟨rfl, rfl, rfl, hversion, hdecode, hlast⟩

omit [Inhabited V] in
theorem mem_descriptorEdit {r : Repairer K V} {p : Nat × FileMetaData K} :
    p ∈ (r.descriptorEdit cfg (r.extractMetaData cfg)).newFiles ↔
      p.1 = 0 ∧ ∃ n ∈ r.tableNumbers, ∃ info, Repairer.scanTable cfg r.disk n = some info ∧
        info.metaData = p.2 := by
  unfold Repairer.descriptorEdit Repairer.extractMetaData
  dsimp only
  rw [List.mem_map]
  constructor
  · grind
  · grind

omit [Inhabited V] in
theorem scanTable_number {n : Nat} {info : TableInfo K}
    (h : Repairer.scanTable cfg d n = some info) : info.metaData.number = n := by
  obtain ⟨t, -, rfl⟩ := Option.map_eq_some_iff.mp h
  rfl

omit [Inhabited V] in
theorem descriptorEdit_nodup {r : Repairer K V} (h : r.tableNumbers.Nodup) :
    ((r.descriptorEdit cfg (r.extractMetaData cfg)).newFiles.map fun p => p.2.number).Nodup := by
  have hsub : ((r.descriptorEdit cfg (r.extractMetaData cfg)).newFiles.map
      fun p => p.2.number).Sublist r.tableNumbers := by
    unfold Repairer.descriptorEdit Repairer.extractMetaData
    dsimp only
    rw [List.map_map]
    generalize r.tableNumbers = numbers
    induction numbers with
    | nil => exact List.Sublist.slnil
    | cons n numbers ih =>
      rw [filterMap_cons]
      cases hscan : Repairer.scanTable cfg r.disk n with
      | none => exact ih.cons n
      | some info =>
        grind [scanTable_number]
  exact h.sublist hsub

/-- The opened database: all tables at level 0, each with its metadata, and no sequence number
    above the last one. -/
structure RepairedDb (d' : Disk K V) (db : Db K V) : Prop where
  mem : db.mem = []
  imm : db.imm = none
  store : db.disk.store = d'.store
  levels : ∀ l, 1 ≤ l → db.versions.current.files l = []
  tables : ∀ n t, d'.tables n = some t → ∃ f ∈ db.versions.current.files 0, f.number = n
  files : ∀ f ∈ db.versions.current.files 0, ∃ t, d'.tables f.number = some t ∧
    Version.Describes f t
  sequence_le : ∀ e ∈ d'.tableEntries, e.sequence ≤ db.versions.lastSequence

theorem le_foldl_sequence {α : Type} (f : α → Nat) (l : List α) (m : Nat) :
    m ≤ l.foldl (fun m x => if m < f x then f x else m) m ∧
      ∀ x ∈ l, f x ≤ l.foldl (fun m x => if m < f x then f x else m) m := by
  induction l generalizing m with
  | nil => exact ⟨le_refl m, fun x hx => absurd hx not_mem_nil⟩
  | cons y l ih =>
    grind

theorem open_repaired (h : Repaired cfg d d') {db : Db K V} (hopen : (openDb cfg d').2 = .ok db) :
    RepairedDb d' db := by
  obtain ⟨r, hmanifest, htables, hnodup, hnumbers⟩ := h.manifest
  obtain ⟨hmem, himm, hdisk, hversion, hdecode, hlast⟩ := open_single h.noLogs hmanifest hopen
  have hscan : ∀ n, Repairer.scanTable cfg r.disk n = Repairer.scanTable cfg d' n := by
    intro n
    unfold Repairer.scanTable
    rw [htables]
  have hfresh : Version.empty.Fresh (r.descriptorEdit cfg (r.extractMetaData cfg)) :=
    Version.fresh_of_numbers (descriptorEdit_nodup hnodup) fun _ _ _ _ hg =>
      absurd hg not_mem_nil
  have hfiles : ∀ l f, f ∈ db.versions.current.files l ↔
      l = 0 ∧ ∃ n info, Repairer.scanTable cfg d' n = some info ∧ info.metaData = f := by
    intro l f
    constructor
    · intro hf
      rw [hversion] at hf
      obtain hf | hf := Version.new_or_old_of_mem hfresh hf
      · obtain ⟨hl, n, -, info, hinfo, hf⟩ := mem_descriptorEdit.mp hf
        exact ⟨hl, n, info, (hscan n) ▸ hinfo, hf⟩
      · exact absurd hf not_mem_nil
    · intro ⟨hl, n, info, hinfo, hf⟩
      obtain ⟨t, ht, -⟩ := Option.map_eq_some_iff.mp hinfo
      rw [hversion, hl, Version.mem_applyEdit (hfresh 0) (by decide), VersionEdit.mem_newFilesAt]
      refine .inl (mem_descriptorEdit.mpr ⟨rfl, n, ?_, info, ?_, hf⟩)
      · rw [hnumbers, ht]
        rfl
      · rw [hscan]
        exact hinfo
  have hkeys := (VersionEdit.decodeError_eq_none_iff.mp hdecode).2.2
  refine ⟨hmem, himm, ?_, ?_, ?_, ?_, ?_⟩
  · unfold Disk.store
    rw [hdisk]
  · intro l hl
    rw [eq_nil_iff_forall_not_mem]
    intro f hf
    have := ((hfiles l f).mp hf).1
    omega
  · intro n t ht
    obtain ⟨info, hinfo⟩ : ∃ info, Repairer.scanTable cfg d' n = some info := by
      unfold Repairer.scanTable
      rw [ht]
      exact ⟨_, rfl⟩
    exact ⟨info.metaData, (hfiles 0 _).mpr ⟨rfl, n, info, hinfo, rfl⟩, scanTable_number hinfo⟩
  · intro f hf
    obtain ⟨-, n, info, hinfo, rfl⟩ := (hfiles 0 f).mp hf
    obtain ⟨t, ht, rfl⟩ := Option.map_eq_some_iff.mp hinfo
    have hne : t.entries ≠ [] := by
      intro hnil
      have hsmallest := (hkeys (0, _) (mem_descriptorEdit.mpr ⟨rfl, n,
        by rw [hnumbers, ht]; rfl, _, by rw [hscan]; exact hinfo, rfl⟩)).2.1
      rw [hnil] at hsmallest
      exact hsmallest rfl
    exact ⟨t, ht, Version.describes_of_ends hne rfl rfl⟩
  · intro e ⟨n, t, ht, he⟩
    obtain ⟨info, hinfo, hmax⟩ : ∃ info, Repairer.scanTable cfg r.disk n = some info ∧
        e.sequence ≤ info.maxSequence := by
      unfold Repairer.scanTable
      rw [← htables, ht]
      exact ⟨_, rfl, (le_foldl_sequence Entry.sequence t.entries 0).2 e he⟩
    have hmem : info ∈ r.extractMetaData cfg :=
      mem_filterMap.mpr ⟨n, (hnumbers n).mpr (by rw [ht]; rfl), hinfo⟩
    refine hmax.trans (((le_foldl_sequence TableInfo.maxSequence _ 0).2 info hmem).trans_eq ?_)
    exact Option.some.inj hlast

/-! ## Lookups in the repaired database -/

variable {db : Db K V}

omit [Inhabited K] [Inhabited V] in
theorem RepairedDb.store_eq (h : RepairedDb d' db) {n : Nat} {t : Table K V}
    (ht : d'.tables n = some t) : db.disk.store n = t := by
  rw [h.store]
  unfold Disk.store
  rw [ht]
  rfl

omit [Inhabited K] [Inhabited V] in
theorem RepairedDb.forEachOverlapping_eq (h : RepairedDb d' db) (k : K) (key : InternalKey K) :
    db.versions.current.forEachOverlapping k key = db.versions.current.overlappingLevelZero k := by
  have hnone : (List.range' 1 (kNumLevels - 1)).filterMap (fun level =>
      db.versions.current.overlappingInLevel level k key) = [] := by
    rw [filterMap_eq_nil_iff]
    intro level hlevel
    unfold Version.overlappingInLevel
    rw [h.levels level (mem_range'_1.mp hlevel).1]
    rfl
  unfold Version.forEachOverlapping
  rw [hnone, append_nil]

omit [Inhabited K] [Inhabited V] in
theorem RepairedDb.dbProbe_eq (h : RepairedDb d' db) (k : K) (s : Nat) :
    dbProbe db.mem db.imm db.versions.current db.disk.store k s =
      (db.versions.current.overlappingLevelZero k).findSome? fun f =>
        (db.disk.store f.number).probe k s := by
  unfold dbProbe
  rw [h.mem, h.imm, h.forEachOverlapping_eq]
  rfl

omit [Inhabited K] [Inhabited V] in
theorem RepairedDb.probe (h : RepairedDb d' db) (k : K) :
    match dbProbe db.mem db.imm db.versions.current db.disk.store k db.versions.lastSequence with
    | some e => ∃ n t, d'.TopTable k n t ∧ Entry.NewestAt t.entrySet k db.versions.lastSequence e
    | none => ∀ e ∈ d'.tableEntries, e.userKey ≠ k := by
  -- a table that holds the key is asked, and has an answer
  have hasked : ∀ n t, d'.tables n = some t → (∃ e ∈ t.entries, e.userKey = k) →
      (∃ f ∈ db.versions.current.overlappingLevelZero k, f.number = n) ∧
      t.probe k db.versions.lastSequence ≠ none := by
    intro n t ht ⟨e, he, hek⟩
    obtain ⟨f, hf, rfl⟩ := h.tables n t ht
    obtain ⟨u, hu, hdesc⟩ := h.files f hf
    obtain rfl : u = t := Option.some.inj (hu.symm.trans ht)
    refine ⟨⟨f, ?_, rfl⟩, ?_⟩
    · rw [Version.mem_overlappingLevelZero, ← hek]
      exact ⟨hf, hdesc.userKey_bounds he⟩
    · intro hnone
      have hspec := u.probe_spec k db.versions.lastSequence
      rw [hnone] at hspec
      exact absurd (h.sequence_le e ⟨_, u, ht, he⟩) (not_le.mpr (hspec e he hek))
  rw [h.dbProbe_eq]
  cases hfind : (db.versions.current.overlappingLevelZero k).findSome? fun f =>
      (db.disk.store f.number).probe k db.versions.lastSequence with
  | none =>
    intro e ⟨n, t, ht, he⟩ hek
    obtain ⟨⟨f, hf, rfl⟩, hprobe⟩ := hasked n t ht ⟨e, he, hek⟩
    have := findSome?_eq_none_iff.mp hfind f hf
    rw [h.store_eq ht] at this
    exact hprobe this
  | some e =>
    obtain ⟨pre, f, post, hsplit, hprobe, hpre⟩ := findSome?_eq_some_iff.mp hfind
    have hf : f ∈ db.versions.current.overlappingLevelZero k := by rw [hsplit]; simp
    obtain ⟨t, ht, -⟩ := h.files f (Version.mem_overlappingLevelZero.mp hf).1
    rw [h.store_eq ht] at hprobe
    have hspec := t.probe_spec k db.versions.lastSequence
    rw [hprobe] at hspec
    refine ⟨f.number, t, ⟨ht, ⟨e, hspec.1, hspec.2.1⟩, ?_⟩, hspec⟩
    intro m u hu hk
    obtain ⟨⟨g, hg, rfl⟩, hne⟩ := hasked m u hu hk
    have hsorted := db.versions.current.overlappingLevelZero_pairwise k
    rw [hsplit] at hg hsorted
    obtain hg | hg := mem_append.mp hg
    · have := hpre g hg
      rw [h.store_eq hu] at this
      exact absurd this hne
    · grind [le_refl, pairwise_cons]

omit [LinearOrder K] [Inhabited K] [Inhabited V] in
theorem reads_newest_iff {S : Set (Entry K V)} {k : K} {s : Nat} {e₀ : Entry K V}
    {r : Except Status (Option V)} (hwf : ∀ e ∈ S, e.key.WellFormed) (he₀ : e₀.key.WellFormed)
    (hput : ∀ val, e₀.IsPut val → r = .ok (some val))
    (hdel : e₀.IsDeletion → ∃ st, r = .error st ∧ st.isNotFound = true)
    (hex : ∃ e, Entry.NewestAt S k s e) :
    ((∀ val, r = .ok (some val) ↔ Entry.Visible S k s val) ∧
      ((∃ st, r = .error st ∧ st.isNotFound = true) ↔
        (∃ e, Entry.NewestAt S k s e ∧ e.IsDeletion) ∨ ¬∃ e ∈ S, e.userKey = k)) ↔
    ∀ e, Entry.NewestAt S k s e → ∀ val, e₀.IsPut val ↔ e.IsPut val := by
  have hpresent : ∃ e ∈ S, e.userKey = k := by
    obtain ⟨e, he⟩ := hex
    exact ⟨e, he.1, he.2.1⟩
  have hok : ∀ val, r = .ok (some val) → e₀.IsPut val := by
    intro val hr
    obtain hp | hd := Entry.isPut_or_isDeletion he₀
    · grind
    · obtain ⟨st, hst, -⟩ := hdel hd
      rw [hr] at hst
      cases hst
  have hgone : (∃ st, r = .error st ∧ st.isNotFound = true) → e₀.IsDeletion := by
    intro ⟨st, hst, _⟩
    obtain hp | hd := Entry.isPut_or_isDeletion he₀
    · rw [hput _ hp] at hst
      cases hst
    · exact hd
  constructor
  · intro ⟨hvalue, hmissing⟩ e he val
    constructor
    · intro hp
      obtain ⟨x, hx, hxp⟩ := (hvalue val).mp (hput val hp)
      obtain hep | hed := Entry.isPut_or_isDeletion (hwf e he.1)
      · have := hok _ ((hvalue _).mpr ⟨e, he, hep⟩)
        obtain ⟨-, -, -, rfl⟩ := hp
        obtain ⟨-, -, -, hv⟩ := this
        rw [hv]
        exact hep
      · exact absurd (hgone (hmissing.mpr (.inl ⟨e, he, hed⟩))) (Entry.not_isDeletion_of_isPut hp)
    · intro hp
      exact hok val ((hvalue val).mpr ⟨e, he, hp⟩)
  · intro hsame
    obtain ⟨e, he⟩ := hex
    refine ⟨fun val => ⟨?_, ?_⟩, ⟨?_, ?_⟩⟩
    · intro hr
      exact ⟨e, he, (hsame e he val).mp (hok val hr)⟩
    · intro ⟨x, hx, hp⟩
      exact hput val ((hsame x hx val).mpr hp)
    · intro hr
      obtain hp | hd := Entry.isPut_or_isDeletion (hwf e he.1)
      · exact absurd (hgone hr) (Entry.not_isDeletion_of_isPut ((hsame e he _).mpr hp))
      · exact .inl ⟨e, he, hd⟩
    · intro h
      obtain ⟨x, hx, hd⟩ | h := h
      · apply hdel
        obtain hp | hd₀ := Entry.isPut_or_isDeletion he₀
        · exact absurd hd (Entry.not_isDeletion_of_isPut ((hsame x hx _).mp hp))
        · exact hd₀
      · exact absurd hpresent h

omit [Inhabited K] in
theorem Disk.salvaged_wellFormed (d : Disk K V) : ∀ e ∈ d.salvaged, e.key.WellFormed := by
  intro e he
  obtain ⟨n, t, -, he⟩ | ⟨n, file, -, he⟩ := he
  · exact t.entries_wellFormed e he
  · obtain ⟨b, -, he⟩ := mem_flatMap.mp he
    exact entriesFrom_wellFormed e he

omit [Inhabited K] [Inhabited V] in
theorem Disk.TopTable.unique {k : K} {n m : Nat} {t u : Table K V} (h : d.TopTable k n t)
    (h' : d.TopTable k m u) : t = u := by
  have hn : n = m := le_antisymm (h'.top n t h.table h.holds) (h.top m u h'.table h'.holds)
  have := h.table
  rw [hn, h'.table] at this
  exact (Option.some.inj this).symm

omit [Inhabited K] [Inhabited V] in
theorem Table.newestAt_unique {t : Table K V} {k : K} {s : Nat} {e e' : Entry K V}
    (h : Entry.NewestAt t.entrySet k s e) (h' : Entry.NewestAt t.entrySet k s e') : e = e' := by
  refine t.sorted.eq_of_key_eq h.1 h'.1 (InternalKey.ext (h.2.1.trans h'.2.1.symm) ?_)
  exact le_antisymm (h'.2.2.2 e h.1 h.2.1 h.2.2.1) (h.2.2.2 e' h'.1 h'.2.1 h'.2.2.1)

end Repaired

def putLog (sequence : Nat) (value : String) : LogFile (WriteBatch Nat String) :=
  ⟨[⟨sequence, [.put 7 value]⟩], 0, Nat.zero_le _⟩

def twoLogs : Disk Nat String :=
  { Disk.empty with
    logs := AList.insert 1 (putLog 1 "old") (AList.insert 2 (putLog 2 "new") ∅) }

/-- `GetChildren` lists the newer log first. -/
def twoLogsListed : List FileName := [.log 2, .log 1]

theorem twoLogs_lookup {n : Nat} {file : LogFile (WriteBatch Nat String)}
    (h : twoLogs.logs.lookup n = some file) :
    file = putLog 1 "old" ∨ file = putLog 2 "new" := by
  unfold twoLogs at h
  by_cases h1 : n = 1
  · rw [h1, AList.lookup_insert] at h
    exact .inl (Option.some.inj h).symm
  · rw [AList.lookup_insert_ne h1] at h
    by_cases h2 : n = 2
    · rw [h2, AList.lookup_insert] at h
      exact .inr (Option.some.inj h).symm
    · rw [AList.lookup_insert_ne h2] at h
      cases h

theorem twoLogs_lists : twoLogs.Lists twoLogsListed where
  nodup := by decide
  logs := by
    intro n
    simp only [twoLogs, twoLogsListed, AList.mem_insert, mem_cons, FileName.log.injEq,
      not_mem_nil, or_false, AList.notMem_empty]
    exact or_comm
  tables := by
    intro n
    simp [twoLogs, twoLogsListed, Disk.empty]

theorem twoLogs_intact : twoLogs.LogsIntact := by
  intro n file h
  obtain rfl | rfl := twoLogs_lookup h
  · exact pairwise_singleton _ _
  · exact pairwise_singleton _ _

theorem mem_twoLogs_salvaged {e : Entry Nat String} :
    e ∈ twoLogs.salvaged ↔ e = Op.entry (.put 7 "old") 1 ∨ e = Op.entry (.put 7 "new") 2 := by
  constructor
  · intro he
    obtain ⟨n, t, ht, -⟩ | ⟨n, file, hfile, he⟩ := he
    · cases ht
    · obtain rfl | rfl := twoLogs_lookup hfile
      · exact .inl (mem_singleton.mp he)
      · exact .inr (mem_singleton.mp he)
  · intro he
    obtain rfl | rfl := he
    · exact .inr ⟨1, putLog 1 "old", rfl, mem_singleton.mpr rfl⟩
    · exact .inr ⟨2, putLog 2 "new", rfl, mem_singleton.mpr rfl⟩

theorem twoLogs_opened :
    ∃ d' db, repairDb (.oneBlock "bytewise" 0) "db" twoLogs twoLogsListed = .ok d' ∧
      (openDb (.oneBlock "bytewise" 0) d').2 = .ok db ∧
      (d'.tables 4).map Table.entries = some [Op.entry (.put 7 "old") 1] ∧
      ∀ n, 4 < n → d'.tables n = none := by
  refine ⟨_, _, rfl, rfl, by decide +kernel, ?_⟩
  intro n hn
  have htwo : ∀ a b : Option (Table Nat String),
      Function.update (Function.update twoLogs.tables 3 a) 4 b n = none := by
    intro a b
    rw [update_of_ne (by omega), update_of_ne (by omega)]
    rfl
  exact htwo _ _

end LevelDB
