/-
  Repairing any directory (`RepairDB`, `db/repair.cc`).

  Here files are bytes under their names: tables may be damaged or called `.sst`, and names need
  not be those that the database gives. How tables are laid out is left open (`TableFormat`).
  There are no I/O errors. `none` stands for what is not followed any further: file numbers that
  run out of their 64 bits, and keys that `TableBuilder` cannot take.
-/
import LevelDB.Db.FileName
import LevelDB.Db.LogRecovery
import LevelDB.Db.ManifestBytes
import LevelDB.Db.RepairFilter

namespace LevelDB

open List Function

namespace Salvage

open Log

/-! ## Files -/

abbrev Files := String → Option Bytes

/-- `TableFileName`. -/
def tableName (number : Nat) : String := sixDigits number ++ ".ldb"

/-- `SSTTableFileName`. -/
def sstName (number : Nat) : String := sixDigits number ++ ".sst"

/-- `LogFileName`. -/
def logName (number : Nat) : String := sixDigits number ++ ".log"

/-- `TempFileName`. -/
def tempName (number : Nat) : String := sixDigits number ++ ".dbtmp"

/-- `DescriptorFileName`. -/
def manifestName (number : Nat) : String := "MANIFEST-" ++ sixDigits number

/-- What iterating over a table gives: the entries, and the status at the end. -/
structure Scan where
  entries : List (Bytes × Bytes)
  status : Option Status

/-- How tables are read and written. `readTable` is `Table::Open` with an iteration over the
    table, `build` is `TableBuilder`. -/
structure TableFormat where
  readTable : Bytes → Except Status Scan
  build : List (Bytes × Bytes) → Option Bytes
  readTable_build : ∀ es b, build es = some b → readTable b = .ok ⟨es, none⟩
  key_length : ∀ b s, readTable b = .ok s → ∀ e ∈ s.entries, e.1.length < 2 ^ 32

/-- `ParseInternalKey`, as far as the sequence number. -/
def parsedSequence (key : Bytes) : Option Nat :=
  if key.length < 8 then none
  else
    let num := decodeFixed64 (key.drop (key.length - 8))
    if 1 < num % 256 then none else some (num / 256)

/-! ## The repairer -/

/-- `struct TableInfo`. -/
structure TableInfo where
  metaData : FileRecord
  maxSequence : Nat

/-- `class Repairer`, with the directory and the table cache. -/
structure Repairer where
  files : Files
  cache : Nat → Option Scan
  manifests : List String
  tableNumbers : List Nat
  logs : List Nat
  tables : List TableInfo
  nextFileNumber : Nat

namespace Repairer

/-- A name in the loop of `FindFiles`. The number after the largest one is 0. -/
def find (r : Repairer) (name : String) : Repairer :=
  match parseFileName name with
  | none => r
  | some p =>
    if p.type = .descriptorFile then { r with manifests := r.manifests ++ [name] }
    else
      let after := (p.number + 1) % 2 ^ 64
      { r with
        nextFileNumber := if r.nextFileNumber < after then after else r.nextFileNumber
        logs := if p.type = .logFile then r.logs ++ [p.number] else r.logs
        tableNumbers := if p.type = .tableFile then r.tableNumbers ++ [p.number]
          else r.tableNumbers }

/-- `FindFiles`, on what `GetChildren` lists. -/
def findFiles (dbname : String) (files : Files) (children : List String) :
    Except Status Repairer :=
  if children.isEmpty then .error (.ioError (dbname ++ ": repair found no files"))
  else .ok (children.foldl find ⟨files, fun _ => none, [], [], [], [], 1⟩)

/-- `next_file_number_++`. -/
def newFileNumber (r : Repairer) : Option (Nat × Repairer) :=
  if r.nextFileNumber + 1 < 2 ^ 64 then
    some (r.nextFileNumber, { r with nextFileNumber := r.nextFileNumber + 1 })
  else none

def setFile (r : Repairer) (name : String) (contents : Option Bytes) : Repairer :=
  { r with files := Function.update r.files name contents }

/-- `ArchiveFile`: the file leaves the directory. -/
def archiveFile (r : Repairer) (name : String) : Repairer := r.setFile name none

def findTable (fmt : TableFormat) (r : Repairer) (number : Nat) : Except Status Scan × Repairer :=
  match r.cache number with
  | some s => (.ok s, r)
  | none =>
    match r.files (tableName number) with
    | none => (.error (.notFoundErr (tableName number)), r)
    | some b =>
      match fmt.readTable b with
      | .error e => (.error e, r)
      | .ok s => (.ok s, { r with cache := Function.update r.cache number (some s) })

/-- `NewTableIterator`, with the entries it gives. -/
def newTableIterator (fmt : TableFormat) (r : Repairer) (number : Nat) : Scan × Repairer :=
  match r.findTable fmt number with
  | (.ok s, r) => (s, r)
  | (.error e, r) => (⟨[], some e⟩, r)

end Repairer

section Convert

variable {K : Type} [LinearOrder K] (fmt : TableFormat) (crc : Checksum) (keys : KeyCodec K)

/-- The memtable of `ConvertLogToTable`, as keys and values. The reader does not verify
    checksums. -/
def logEntries (file : Bytes) : List (Bytes × Bytes) :=
  let records := (readLog crc false file).elim [] fun (records, _) => records.map Prod.snd
  (records.foldl (scanRecord keys) ⟨[], 0, 0⟩).mem.map fun e => (keys.internalKey e.key, e.value)

namespace Repairer

/-- `ConvertLogToTable`, with `BuildTable`. -/
def convertLogToTable (r : Repairer) (n : Nat) : Option Repairer :=
  match r.files (logName n) with
  | none => some r
  | some file => do
    let (number, r) ← r.newFileNumber
    let es := logEntries crc keys file
    if es.isEmpty then return r.setFile (tableName number) none
    let b ← fmt.build es
    let (_, r) := (r.setFile (tableName number) (some b)).newTableIterator fmt number
    return { r with tableNumbers := r.tableNumbers ++ [number] }

def convertLogFilesToTables (r : Repairer) : Option Repairer :=
  r.logs.foldlM (fun r n => (r.convertLogToTable fmt crc keys n).map (archiveFile · (logName n))) r

end Repairer

end Convert

/-- One entry in the loop of `ScanTable`, with `empty`. -/
def scanEntry (st : TableInfo × Bool) (e : Bytes × Bytes) : TableInfo × Bool :=
  match parsedSequence e.1 with
  | none => st
  | some sequence =>
    let t := st.1
    ({ metaData := { t.metaData with
          smallest := if st.2 then e.1 else t.metaData.smallest
          largest := e.1 }
       maxSequence := if t.maxSequence < sequence then sequence else t.maxSequence }, false)

/-- What `ScanTable` has found out about the entries. -/
def tableInfo (number fileSize : Nat) (entries : List (Bytes × Bytes)) : TableInfo :=
  (entries.foldl scanEntry (⟨⟨number, fileSize % 2 ^ 64, [], []⟩, 0⟩, true)).1

namespace Repairer

variable (fmt : TableFormat)

/-- `RepairTable`. A copy without entries is abandoned, and stays in the directory. -/
def repairTable (r : Repairer) (src : String) (number : Nat) (scanned : List (Bytes × Bytes)) :
    Option Repairer := do
  let (copy, r) ← r.newFileNumber
  let (scan, r) := (r.setFile (tableName copy) (some [])).newTableIterator fmt number
  let r := r.archiveFile src
  if scan.entries.isEmpty then return r
  let b ← fmt.build scan.entries
  let r := (r.setFile (tableName copy) none).setFile (tableName number) (some b)
  return { r with tables := r.tables ++ [tableInfo number b.length scanned] }

def scanTable (r : Repairer) (number : Nat) : Option Repairer :=
  match (r.files (tableName number)).or (r.files (sstName number)) with
  | none => some ((r.archiveFile (tableName number)).archiveFile (sstName number))
  | some b =>
    let fname := if (r.files (tableName number)).isSome then tableName number else sstName number
    let (scan, r) := r.newTableIterator fmt number
    if scan.status.isNone then
      some { r with tables := r.tables ++ [tableInfo number b.length scan.entries] }
    else r.repairTable fmt fname number scan.entries

def extractMetaData (r : Repairer) : Option Repairer := r.tableNumbers.foldlM (scanTable fmt) r

/-- The record of `WriteDescriptor`. -/
def descriptor (comparatorName : String) (r : Repairer) : EditRecord where
  comparator := some (bytesOf comparatorName)
  logNumber := some 0
  nextFileNumber := some r.nextFileNumber
  lastSequence := some (r.tables.foldl (fun m t => if m < t.maxSequence then t.maxSequence else m) 0)
  newFiles := r.tables.map fun t => (0, t.metaData)

/-- `WriteDescriptor`: the manifests are archived, and MANIFEST-000001 and CURRENT are written,
    both by way of a temporary file. -/
def writeDescriptor (crc : Checksum) (comparatorName : String) (r : Repairer) : Files :=
  let r := r.manifests.foldl archiveFile r
  let r := r.setFile (manifestName 1) (some (logFile crc [(r.descriptor comparatorName).encodeTo]))
  let r := r.setFile "CURRENT" (some (bytesOf (manifestName 1 ++ "\n")))
  (r.setFile (tempName 1) none).files

end Repairer

section Run

variable {K : Type} [LinearOrder K] (fmt : TableFormat) (crc : Checksum) (keys : KeyCodec K)

/-- `Repairer::Run` up to `WriteDescriptor`. -/
def Repairer.run (dbname : String) (files : Files) (children : List String) :
    Option (Except Status Repairer) :=
  match findFiles dbname files children with
  | .error s => some (.error s)
  | .ok r => do
    let r ← r.convertLogFilesToTables fmt crc keys
    let r ← r.extractMetaData fmt
    return .ok r

def repairDb (comparatorName dbname : String) (files : Files) (children : List String) :
    Option (Except Status Files) :=
  (Repairer.run fmt crc keys dbname files children).map
    (Except.map (Repairer.writeDescriptor crc comparatorName))

end Run

/-! ## Names -/

theorem sixDigits_injective {n m : Nat} (h : sixDigits n = sixDigits m) : n = m := by
  have hvalue : ∀ k, Nat.ofDigitChars 10 (sixDigits k).toList 0 = k := by
    intro k
    rw [sixDigits, String.toList_ofList, Nat.ofDigitChars_append, Nat.ofDigitChars_replicate_zero,
      Nat.mul_zero, Nat.ofDigitChars_ten_toDigits]
  rw [← hvalue n, h, hvalue]

theorem numbered_injective {n m : Nat} {s t : String} (hs : s.toList.head? = some '.')
    (ht : t.toList.head? = some '.') (h : sixDigits n ++ s = sixDigits m ++ t) : n = m ∧ s = t := by
  have hnodot : ∀ k, ∀ c ∈ (sixDigits k).toList, decide (c ≠ '.') = true := by
    intro k c hc
    rw [decide_eq_true_eq]
    intro heq
    have hdigit := sixDigits_isDigit k c hc
    rw [heq] at hdigit
    cases hdigit
  have htake : ∀ k (u : String), u.toList.head? = some '.' →
      (sixDigits k ++ u).toList.takeWhile (fun c => decide (c ≠ '.')) = (sixDigits k).toList := by
    intro k u hu
    obtain ⟨rest, hrest⟩ := head?_eq_some_iff.mp hu
    rw [String.toList_append, takeWhile_append_of_pos (hnodot k), hrest]
    simp
  have hnm : n = m := by
    refine sixDigits_injective (String.toList_injective ?_)
    rw [← htake n s hs, h, htake m t ht]
  refine ⟨hnm, String.toList_injective ?_⟩
  have hlist := congrArg String.toList h
  rw [String.toList_append, String.toList_append, hnm] at hlist
  exact append_cancel_left hlist

theorem tableName_ne {n m : Nat} (h : n ≠ m) : tableName n ≠ tableName m :=
  fun heq => h (numbered_injective rfl rfl heq).1

theorem sstName_ne {n m : Nat} (h : n ≠ m) : sstName n ≠ sstName m :=
  fun heq => h (numbered_injective rfl rfl heq).1

theorem logName_ne {n m : Nat} (h : n ≠ m) : logName n ≠ logName m :=
  fun heq => h (numbered_injective rfl rfl heq).1

theorem tableName_ne_sstName (n m : Nat) : tableName n ≠ sstName m :=
  fun heq => absurd (numbered_injective rfl rfl heq).2 (by decide)

theorem tableName_ne_logName (n m : Nat) : tableName n ≠ logName m :=
  fun heq => absurd (numbered_injective rfl rfl heq).2 (by decide)

theorem sstName_ne_logName (n m : Nat) : sstName n ≠ logName m :=
  fun heq => absurd (numbered_injective rfl rfl heq).2 (by decide)

theorem parseFileName_lt {name : String} {p : ParsedFile} (h : parseFileName name = some p) :
    p.number < 2 ^ 64 := by
  have hchars : ∀ {cs n}, fromChars cs = some n → n < 2 ^ 64 := by
    intro cs n hn
    unfold fromChars at hn
    split_ifs at hn with hc
    rw [← Option.some.inj hn]
    exact hc.2.2
  unfold parseFileName at h
  split_ifs at h
  · rw [← Option.some.inj h]
    exact Nat.two_pow_pos 64
  · rw [← Option.some.inj h]
    exact Nat.two_pow_pos 64
  · rw [← Option.some.inj h]
    exact Nat.two_pow_pos 64
  · obtain ⟨n, hn, rfl⟩ := Option.map_eq_some_iff.mp h
    exact hchars hn
  · grind [Option.bind_eq_some_iff, Option.map_eq_some_iff]

/-- `GetChildren` lists the names of the files. -/
def Lists (files : Files) (children : List String) : Prop :=
  ∀ name, name ∈ children ↔ (files name).isSome

namespace Repairer

/-! ## Finding files -/

/-- The name counts for `next_file_number_`, with this number. -/
def Numbered (children : List String) (n : Nat) : Prop :=
  ∃ name ∈ children, ∃ p, parseFileName name = some p ∧ p.type ≠ .descriptorFile ∧ p.number = n

/-- The loop of `FindFiles` has gone through `seen`. -/
structure Found (files : Files) (seen : List String) (r : Repairer) : Prop where
  files : r.files = files
  cache : r.cache = fun _ => none
  tables : r.tables = []
  manifests : ∀ name ∈ r.manifests, ∃ n, parseFileName name = some ⟨n, .descriptorFile⟩
  logs : ∀ n, n ∈ r.logs ↔ ∃ name ∈ seen, parseFileName name = some ⟨n, .logFile⟩
  tableNumbers : ∀ n, n ∈ r.tableNumbers ↔ ∃ name ∈ seen, parseFileName name = some ⟨n, .tableFile⟩
  next_pos : 1 ≤ r.nextFileNumber
  next_lt : r.nextFileNumber < 2 ^ 64
  next_le : ∀ n, Numbered seen n → (n + 1) % 2 ^ 64 ≤ r.nextFileNumber
  next_eq : r.nextFileNumber = 1 ∨ ∃ n, Numbered seen n ∧ (n + 1) % 2 ^ 64 = r.nextFileNumber

theorem numbered_append {seen : List String} {name : String} {n : Nat} :
    Numbered (seen ++ [name]) n ↔ Numbered seen n ∨ ∃ p, parseFileName name = some p ∧
      p.type ≠ .descriptorFile ∧ p.number = n := by
  unfold Numbered
  simp only [mem_append, mem_singleton, or_and_right, exists_or, exists_eq_left]

theorem exists_mem_append_singleton {seen : List String} {name : String} {q : ParsedFile} :
    (∃ x ∈ seen ++ [name], parseFileName x = some q) ↔
      (∃ x ∈ seen, parseFileName x = some q) ∨ parseFileName name = some q := by
  simp only [mem_append, mem_singleton, or_and_right, exists_or, exists_eq_left]

theorem Found.step {files : Files} {seen : List String} {r : Repairer} (h : Found files seen r)
    (name : String) : Found files (seen ++ [name]) (r.find name) := by
  unfold find
  cases hparse : parseFileName name with
  | none =>
    refine ⟨h.files, h.cache, h.tables, h.manifests, ?_, ?_, h.next_pos, h.next_lt, ?_, ?_⟩
    · intro n
      rw [exists_mem_append_singleton, hparse, h.logs]
      simp
    · intro n
      rw [exists_mem_append_singleton, hparse, h.tableNumbers]
      simp
    · intro n hn
      rw [numbered_append, hparse] at hn
      exact h.next_le n (hn.resolve_right (by simp))
    · refine h.next_eq.imp_right ?_
      intro ⟨n, hn, heq⟩
      exact ⟨n, numbered_append.mpr (Or.inl hn), heq⟩
  | some p =>
    obtain ⟨number, type⟩ := p
    dsimp only
    by_cases htype : type = .descriptorFile
    · rw [if_pos htype]
      refine ⟨h.files, h.cache, h.tables, ?_, ?_, ?_, h.next_pos, h.next_lt, ?_, ?_⟩
      · intro x hx
        obtain hx | hx := mem_append.mp hx
        · exact h.manifests x hx
        · rw [mem_singleton.mp hx, ← htype]
          exact ⟨number, hparse⟩
      · intro n
        rw [exists_mem_append_singleton, hparse, h.logs]
        simp [htype]
      · intro n
        rw [exists_mem_append_singleton, hparse, h.tableNumbers]
        simp [htype]
      · intro n hn
        rw [numbered_append, hparse] at hn
        exact h.next_le n (hn.resolve_right (by simp [htype]))
      · refine h.next_eq.imp_right ?_
        intro ⟨n, hn, heq⟩
        exact ⟨n, numbered_append.mpr (Or.inl hn), heq⟩
    · have hmax : (if r.nextFileNumber < (number + 1) % 2 ^ 64 then (number + 1) % 2 ^ 64
          else r.nextFileNumber) = max r.nextFileNumber ((number + 1) % 2 ^ 64) := by
        split_ifs with hlt
        · rw [max_eq_right hlt.le]
        · rw [max_eq_left (not_lt.mp hlt)]
      have hnew : ∀ n, Numbered (seen ++ [name]) n ↔ Numbered seen n ∨ n = number := by
        intro n
        rw [numbered_append, hparse]
        refine or_congr_right ⟨?_, ?_⟩
        · intro ⟨p, hp, _, hn⟩
          rw [← hn, ← Option.some.inj hp]
        · intro hn
          exact ⟨_, rfl, htype, hn.symm⟩
      rw [if_neg htype, hmax]
      refine ⟨h.files, h.cache, h.tables, h.manifests, ?_, ?_, h.next_pos.trans (le_max_left _ _),
        max_lt h.next_lt (Nat.mod_lt _ (Nat.two_pow_pos 64)), ?_, ?_⟩
      · intro n
        rw [exists_mem_append_singleton, hparse, ← h.logs]
        dsimp only
        split_ifs with hlog
        · simp [hlog, eq_comm]
        · simp [hlog]
      · intro n
        rw [exists_mem_append_singleton, hparse, ← h.tableNumbers]
        dsimp only
        split_ifs with htable
        · simp [htable, eq_comm]
        · simp [htable]
      · intro n hn
        obtain hn | rfl := (hnew n).mp hn
        · exact (h.next_le n hn).trans (le_max_left _ _)
        · exact le_max_right _ _
      · obtain hle | hlt := le_or_gt ((number + 1) % 2 ^ 64) r.nextFileNumber
        · rw [max_eq_left hle]
          refine h.next_eq.imp_right ?_
          intro ⟨n, hn, heq⟩
          exact ⟨n, (hnew n).mpr (Or.inl hn), heq⟩
        · rw [max_eq_right hlt.le]
          exact Or.inr ⟨number, (hnew number).mpr (Or.inr rfl), rfl⟩

theorem findFiles_found {dbname : String} {files : Files} {children : List String} {r : Repairer}
    (h : findFiles dbname files children = .ok r) : Found files children r := by
  have hloop : ∀ (names seen : List String) (r : Repairer), Found files seen r →
      Found files (seen ++ names) (names.foldl find r) := by
    intro names
    induction names with
    | nil =>
      intro seen r hr
      rw [append_nil]
      exact hr
    | cons name names ih =>
      intro seen r hr
      rw [foldl_cons, ← singleton_append, ← append_assoc]
      exact ih _ _ (hr.step name)
  unfold findFiles at h
  split_ifs at h
  obtain rfl := Except.ok.inj h
  refine hloop children [] _ ⟨rfl, rfl, rfl, fun _ hx => absurd hx not_mem_nil, ?_, ?_,
    le_refl 1, Nat.one_lt_two_pow (by decide), ?_, Or.inl rfl⟩
  · simp
  · simp
  · intro n hn
    obtain ⟨_, hx, -⟩ := hn
    exact absurd hx not_mem_nil

theorem foldlM_invariant {α β : Type} {f : β → α → Option β} {I : List α → β → Prop} {l : List α}
    (hstep : ∀ done, ∀ a ∈ l, ∀ b b', I done b → f b a = some b' → I (done ++ [a]) b')
    {done : List α} {b b' : β} (h0 : I done b) (h : l.foldlM f b = some b') : I (done ++ l) b' := by
  induction l generalizing done b with
  | nil =>
    obtain rfl := Option.some.inj h
    rw [append_nil]
    exact h0
  | cons a l ih =>
    rw [foldlM_cons] at h
    obtain ⟨b1, hb1, h⟩ := Option.bind_eq_some_iff.mp h
    rw [← singleton_append, ← append_assoc]
    exact ih (fun d x hx => hstep d x (mem_cons_of_mem a hx))
      (hstep done a mem_cons_self b b1 h0 hb1) h

theorem newFileNumber_eq_some {r r' : Repairer} {n : Nat} (h : r.newFileNumber = some (n, r')) :
    n = r.nextFileNumber ∧ n + 1 < 2 ^ 64 ∧ r' = { r with nextFileNumber := n + 1 } := by
  grind [newFileNumber, Prod.mk.inj, Option.some.inj]

@[simp] theorem setFile_files (r : Repairer) (name : String) (contents : Option Bytes) :
    (r.setFile name contents).files = Function.update r.files name contents := rfl

@[simp] theorem setFile_tableNumbers (r : Repairer) (name : String) (contents : Option Bytes) :
    (r.setFile name contents).tableNumbers = r.tableNumbers := rfl

theorem newTableIterator_spec {fmt : TableFormat} {r : Repairer} {n : Nat} {o : Option Bytes}
    (hcache : ∀ s, r.cache n = some s → ∃ b, o = some b ∧ fmt.readTable b = .ok s)
    (hfile : r.cache n = none → r.files (tableName n) = o ∨
      r.files (tableName n) = none ∧ ∀ b s, o = some b → fmt.readTable b ≠ .ok s) :
    (∃ b s, o = some b ∧ fmt.readTable b = .ok s ∧
      r.newTableIterator fmt n = (s, { r with cache := Function.update r.cache n (some s) })) ∨
    (∀ b s, o = some b → fmt.readTable b ≠ .ok s) ∧
      ∃ e, r.newTableIterator fmt n = (⟨[], some e⟩, r) := by
  unfold newTableIterator findTable
  cases hc : r.cache n with
  | some s =>
    obtain ⟨b, hb, hread⟩ := hcache s hc
    refine Or.inl ⟨b, s, hb, hread, ?_⟩
    dsimp only
    rw [← hc, update_eq_self]
  | none =>
    dsimp only
    obtain hfile | ⟨hnone, hbad⟩ := hfile hc
    · rw [hfile]
      cases o with
      | none => exact Or.inr ⟨fun b s hb => absurd hb nofun, _, rfl⟩
      | some b =>
        dsimp only
        cases hread : fmt.readTable b with
        | error e =>
          grind
        | ok s => exact Or.inl ⟨b, s, rfl, hread, rfl⟩
    · rw [hnone]
      exact Or.inr ⟨hbad, _, rfl⟩

end Repairer

/-! ## Converting logs -/

section Converted

variable {K : Type} [LinearOrder K] {fmt : TableFormat} {crc : Checksum} {keys : KeyCodec K}
  {r₀ r : Repairer} {done : List Nat}

/-- The table `b` has been built from log `m`. -/
def BuiltFrom (fmt : TableFormat) (crc : Checksum) (keys : KeyCodec K) (files : Files) (m : Nat)
    (b : Bytes) : Prop :=
  ∃ file, files (logName m) = some file ∧ logEntries crc keys file ≠ [] ∧
    fmt.build (logEntries crc keys file) = some b

/-- The logs in `done` have been converted. -/
structure Converted (fmt : TableFormat) (crc : Checksum) (keys : KeyCodec K) (r₀ : Repairer)
    (done : List Nat) (r : Repairer) : Prop where
  manifests : r.manifests = r₀.manifests
  tables : r.tables = r₀.tables
  next_le : r₀.nextFileNumber ≤ r.nextFileNumber
  next_lt : r.nextFileNumber < 2 ^ 64
  next_eq : r₀.nextFileNumber < r.nextFileNumber ↔ ∃ m ∈ done, (r₀.files (logName m)).isSome
  logs : ∀ m, r.files (logName m) = if m ∈ done then none else r₀.files (logName m)
  ssts : ∀ n, r.files (sstName n) = r₀.files (sstName n)
  kept : ∀ n, n < r₀.nextFileNumber ∨ r.nextFileNumber ≤ n →
    r.files (tableName n) = r₀.files (tableName n)
  cache : ∀ n s, r.cache n = some s → r₀.nextFileNumber ≤ n ∧ n < r.nextFileNumber ∧
    ∃ b, r.files (tableName n) = some b ∧ fmt.readTable b = .ok s
  old : ∀ n ∈ r₀.tableNumbers, n ∈ r.tableNumbers
  new : ∀ n ∈ r.tableNumbers, n ∈ r₀.tableNumbers ∨
    (r₀.nextFileNumber ≤ n ∧ n < r.nextFileNumber) ∧
      ∃ m ∈ done, ∃ b, BuiltFrom fmt crc keys r₀.files m b ∧ r.files (tableName n) = some b
  built : ∀ m ∈ done, ∀ file, r₀.files (logName m) = some file → logEntries crc keys file ≠ [] →
    ∃ n ∈ r.tableNumbers, n < r.nextFileNumber ∧
      ∃ b, BuiltFrom fmt crc keys r₀.files m b ∧ r.files (tableName n) = some b

theorem Converted.init (hnext : r₀.nextFileNumber < 2 ^ 64) (hcache : r₀.cache = fun _ => none) :
    Converted fmt crc keys r₀ [] r₀ where
  manifests := rfl
  tables := rfl
  next_le := le_refl _
  next_lt := hnext
  next_eq := by simp
  logs := fun m => by rw [if_neg not_mem_nil]
  ssts := fun _ => rfl
  kept := fun _ _ => rfl
  cache := fun n s hs => by
    rw [hcache] at hs
    cases hs
  old := fun _ hn => hn
  new := fun _ hn => Or.inl hn
  built := fun _ hm => absurd hm not_mem_nil

section

variable (h : Converted fmt crc keys r₀ done r) {m : Nat}
include h

theorem Converted.skip (hm : r.files (logName m) = none) :
    Converted fmt crc keys r₀ (done ++ [m]) (r.archiveFile (logName m)) := by
  have hsame : r.archiveFile (logName m) = r := by
    unfold Repairer.archiveFile Repairer.setFile
    rw [← hm, update_eq_self]
  have hgone : m ∉ done → r₀.files (logName m) = none := by
    intro hnot
    have hlog := h.logs m
    rw [if_neg hnot, hm] at hlog
    exact hlog.symm
  have hdone : ∀ k file, k ∈ done ++ [m] → r₀.files (logName k) = some file → k ∈ done := by
    intro k file hk hfile
    obtain hk | hk := mem_append.mp hk
    · exact hk
    · obtain rfl := mem_singleton.mp hk
      by_contra hnot
      rw [hgone hnot] at hfile
      cases hfile
  rw [hsame]
  refine ⟨h.manifests, h.tables, h.next_le, h.next_lt, ?_, ?_, h.ssts, h.kept, h.cache, h.old, ?_, ?_⟩
  · grind [h.next_eq, mem_append_left, Option.isSome_iff_exists]
  · intro k
    rw [h.logs]
    by_cases hk : k ∈ done
    · rw [if_pos hk, if_pos (mem_append_left _ hk)]
    · grind
  · intro n hn
    refine (h.new n hn).imp_right ?_
    intro ⟨hrange, k, hk, hbuilt⟩
    exact ⟨hrange, k, mem_append_left _ hk, hbuilt⟩
  · intro k hk file hfile hne
    exact h.built k (hdone k file hk hfile) file hfile hne

theorem Converted.grow {file : Bytes}
    (hm : r.files (logName m) = some file) {contents : Option Bytes} {r' : Repairer}
    (hmanifests : r'.manifests = r.manifests) (htables : r'.tables = r.tables)
    (hnext : r'.nextFileNumber = r.nextFileNumber + 1) (hlt : r.nextFileNumber + 1 < 2 ^ 64)
    (hfiles : r'.files = Function.update r.files (tableName r.nextFileNumber) contents)
    (hcache : ∀ n s, r'.cache n = some s → r.cache n = some s ∨
      n = r.nextFileNumber ∧ ∃ b, contents = some b ∧ fmt.readTable b = .ok s)
    (hnumbers : ∀ n, n ∈ r'.tableNumbers ↔
      n ∈ r.tableNumbers ∨ n = r.nextFileNumber ∧ contents.isSome)
    (hcontents : logEntries crc keys file = [] ∧ contents = none ∨
      logEntries crc keys file ≠ [] ∧ contents.isSome ∧
        fmt.build (logEntries crc keys file) = contents) :
    Converted fmt crc keys r₀ (done ++ [m]) (r'.archiveFile (logName m)) := by
  have hnot : m ∉ done := by
    intro hdone
    have hlog := h.logs m
    rw [if_pos hdone, hm] at hlog
    cases hlog
  have hfile : r₀.files (logName m) = some file := by
    have hlog := h.logs m
    rw [if_neg hnot, hm] at hlog
    exact hlog.symm
  have hbuilt : ∀ b, contents = some b → BuiltFrom fmt crc keys r₀.files m b := by
    intro b hb
    obtain ⟨-, hnone⟩ | ⟨hne, -, hbuild⟩ := hcontents
    · rw [hb] at hnone
      cases hnone
    · exact ⟨file, hfile, hne, hbuild.trans hb⟩
  have htable : ∀ n, (r'.archiveFile (logName m)).files (tableName n) =
      if n = r.nextFileNumber then contents else r.files (tableName n) := by
    intro n
    unfold Repairer.archiveFile
    rw [Repairer.setFile_files, update_of_ne (tableName_ne_logName n m), hfiles]
    split_ifs with hn
    · rw [hn, update_self]
    · rw [update_of_ne (tableName_ne hn)]
  -- the tables there were before have other numbers
  have hother : ∀ n, r₀.nextFileNumber ≤ n ∧ n < r.nextFileNumber →
      (r'.archiveFile (logName m)).files (tableName n) = r.files (tableName n) := by
    intro n hn
    rw [htable, if_neg hn.2.ne]
  refine ⟨hmanifests.trans h.manifests, htables.trans h.tables, ?_, ?_, ?_, ?_, ?_, ?_, ?_, ?_, ?_, ?_⟩
  · exact h.next_le.trans (hnext ▸ Nat.le_succ _)
  · exact hnext ▸ hlt
  · refine iff_of_true ?_ ⟨m, mem_append_right _ (mem_singleton.mpr rfl), ?_⟩
    · exact h.next_le.trans_lt (hnext ▸ Nat.lt_succ_self _)
    · rw [hfile]
      rfl
  · intro k
    unfold Repairer.archiveFile
    rw [Repairer.setFile_files, hfiles]
    by_cases hk : k = m
    · rw [hk, update_self, if_pos (mem_append_right _ (mem_singleton.mpr rfl))]
    · rw [update_of_ne (logName_ne hk),
        update_of_ne (tableName_ne_logName _ k).symm, h.logs]
      simp [hk]
  · intro n
    unfold Repairer.archiveFile
    rw [Repairer.setFile_files, hfiles, update_of_ne (sstName_ne_logName n m),
      update_of_ne (tableName_ne_sstName _ n).symm, h.ssts]
  · intro n hn
    change n < r₀.nextFileNumber ∨ r'.nextFileNumber ≤ n at hn
    rw [hnext] at hn
    have hle := h.next_le
    rw [htable, if_neg (by omega)]
    exact h.kept n (by omega)
  · intro n s hs
    change r₀.nextFileNumber ≤ n ∧ n < r'.nextFileNumber ∧ _
    rw [hnext]
    obtain hold | ⟨rfl, b, hb, hread⟩ := hcache n s hs
    · obtain ⟨hlo, hhi, b, hb, hread⟩ := h.cache n s hold
      exact ⟨hlo, hhi.trans (Nat.lt_succ_self _), b, (hother n ⟨hlo, hhi⟩).trans hb, hread⟩
    · refine ⟨h.next_le, Nat.lt_succ_self _, b, ?_, hread⟩
      rw [htable, if_pos rfl]
      exact hb
  · exact fun n hn => (hnumbers n).mpr (Or.inl (h.old n hn))
  · intro n hn
    change n ∈ r₀.tableNumbers ∨ (r₀.nextFileNumber ≤ n ∧ n < r'.nextFileNumber) ∧ _
    rw [hnext]
    obtain hold | ⟨rfl, hsome⟩ := (hnumbers n).mp hn
    · refine (h.new n hold).imp_right ?_
      intro ⟨hrange, k, hk, b, hb, heq⟩
      exact ⟨⟨hrange.1, hrange.2.trans (Nat.lt_succ_self _)⟩, k, mem_append_left _ hk, b, hb,
        (hother n hrange).trans heq⟩
    · obtain ⟨b, hb⟩ := Option.isSome_iff_exists.mp hsome
      refine Or.inr ⟨⟨h.next_le, Nat.lt_succ_self _⟩, m,
        mem_append_right _ (mem_singleton.mpr rfl), b, hbuilt b hb, ?_⟩
      rw [htable, if_pos rfl]
      exact hb
  · intro k hk f hf hne
    obtain hk | hk := mem_append.mp hk
    · obtain ⟨n, hn, hlo, b, hb, heq⟩ := h.built k hk f hf hne
      refine ⟨n, (hnumbers n).mpr (Or.inl hn), hlo.trans (hnext ▸ Nat.lt_succ_self _), b, hb, ?_⟩
      rw [htable, if_neg hlo.ne]
      exact heq
    · obtain rfl := mem_singleton.mp hk
      obtain rfl := Option.some.inj (hfile.symm.trans hf)
      obtain ⟨hnil, -⟩ | ⟨-, hsome, hbuild⟩ := hcontents
      · exact absurd hnil hne
      · obtain ⟨b, hb⟩ := Option.isSome_iff_exists.mp hsome
        refine ⟨r.nextFileNumber, (hnumbers _).mpr (Or.inr ⟨rfl, hsome⟩), hnext ▸ Nat.lt_succ_self _,
          b, hbuilt b hb, ?_⟩
        rw [htable, if_pos rfl]
        exact hb

theorem Converted.step {r' : Repairer} (hstep : r.convertLogToTable fmt crc keys m = some r') :
    Converted fmt crc keys r₀ (done ++ [m]) (r'.archiveFile (logName m)) := by
  unfold Repairer.convertLogToTable at hstep
  cases hm : r.files (logName m) with
  | none =>
    rw [hm] at hstep
    obtain rfl := Option.some.inj hstep
    exact h.skip hm
  | some file =>
    rw [hm] at hstep
    obtain ⟨⟨number, r1⟩, hnew, hstep⟩ := Option.bind_eq_some_iff.mp hstep
    obtain ⟨rfl, hlt, rfl⟩ := Repairer.newFileNumber_eq_some hnew
    dsimp only at hstep
    split_ifs at hstep with hempty
    · obtain rfl := Option.some.inj hstep
      refine h.grow hm rfl rfl rfl hlt rfl (fun n s hs => Or.inl hs) (fun n => by simp)
        (Or.inl ⟨List.isEmpty_iff.mp hempty, rfl⟩)
    · obtain ⟨b, hbuild, hstep⟩ := Option.bind_eq_some_iff.mp hstep
      have hread := fmt.readTable_build _ b hbuild
      have hfree : r.cache r.nextFileNumber = none := by
        cases hc : r.cache r.nextFileNumber with
        | none => rfl
        | some s => exact absurd (h.cache _ s hc).2.1 (lt_irrefl _)
      obtain ⟨b', s, hb', hs, hiter⟩ | ⟨hbad, -⟩ := Repairer.newTableIterator_spec
          (r := ({ r with nextFileNumber := r.nextFileNumber + 1 } : Repairer).setFile
            (tableName r.nextFileNumber) (some b)) (n := r.nextFileNumber) (o := some b)
          (fun s hs => absurd (hfree.symm.trans hs) nofun)
          (fun _ => Or.inl (update_self _ _ _))
      · rw [hiter] at hstep
        obtain rfl := Option.some.inj hstep
        obtain rfl := Option.some.inj hb'
        refine h.grow hm rfl rfl rfl hlt rfl ?_ (fun n => by simp)
          (Or.inr ⟨fun hnil => hempty (List.isEmpty_iff.mpr hnil), rfl, hbuild⟩)
        intro n t ht
        by_cases hn : n = r.nextFileNumber
        · simp_all
        · dsimp only at ht
          rw [update_of_ne hn] at ht
          exact Or.inl ht
      · exact absurd hread (hbad b _ rfl)

end

theorem convertLogFilesToTables_spec (hnext : r₀.nextFileNumber < 2 ^ 64)
    (hcache : r₀.cache = fun _ => none)
    (h : r₀.convertLogFilesToTables fmt crc keys = some r) :
    Converted fmt crc keys r₀ r₀.logs r := by
  unfold Repairer.convertLogFilesToTables at h
  refine Repairer.foldlM_invariant ?_ (Converted.init hnext hcache) h
  intro done m _ a b ha hb
  obtain ⟨c, hc, rfl⟩ := Option.map_eq_some_iff.mp hb
  exact ha.step hc

end Converted

/-! ## Scanning tables -/

/-- What is left under the name of a table file: itself if it can be read to its end, and
    otherwise a new table of the entries that could be read, if any. -/
def salvaged (fmt : TableFormat) (b : Bytes) : Option Bytes :=
  match fmt.readTable b with
  | .error _ => none
  | .ok s =>
    if s.status.isNone then some b else if s.entries.isEmpty then none else fmt.build s.entries

def salvagedInfo (fmt : TableFormat) (number : Nat) (b : Bytes) : Option TableInfo :=
  match fmt.readTable b with
  | .error _ => none
  | .ok s => (salvaged fmt b).map fun b' => tableInfo number b'.length s.entries

/-- `ScanTable` finds a file with this number and does not get to the end of the table. -/
def Unreadable (fmt : TableFormat) (files : Files) (number : Nat) : Prop :=
  match files (tableName number) with
  | none => (files (sstName number)).isSome
  | some b => ∀ s, fmt.readTable b = .ok s → s.status ≠ none

section Extracted

variable {fmt : TableFormat} {r₁ r r' : Repairer} {done : List Nat} {n : Nat}

/-- The tables in `done` have been scanned. -/
structure Extracted (fmt : TableFormat) (r₁ : Repairer) (done : List Nat) (r : Repairer) :
    Prop where
  sub : ∀ n ∈ done, n ∈ r₁.tableNumbers
  manifests : r.manifests = r₁.manifests
  next_le : r₁.nextFileNumber ≤ r.nextFileNumber
  next_lt : r.nextFileNumber < 2 ^ 64
  next_eq : r₁.nextFileNumber < r.nextFileNumber ↔ ∃ n ∈ done, Unreadable fmt r₁.files n
  logs : ∀ m, r.files (logName m) = r₁.files (logName m)
  ssts : ∀ n, r.files (sstName n) = r₁.files (sstName n) ∨ n ∈ done ∧ r.files (sstName n) = none
  kept : ∀ n ∈ r₁.tableNumbers, n ∉ done → r.files (tableName n) = r₁.files (tableName n)
  left : ∀ n ∈ done, r.files (tableName n) = (r₁.files (tableName n)).bind (salvaged fmt)
  saved : ∀ n ∈ done, ∀ b s, r₁.files (tableName n) = some b → fmt.readTable b = .ok s →
    s.status = none ∨ s.entries ≠ [] → (salvaged fmt b).isSome
  cache : ∀ n ∈ r₁.tableNumbers, ∀ s, r.cache n = some s →
    ∃ b, r₁.files (tableName n) = some b ∧ fmt.readTable b = .ok s
  cached : ∀ n ∈ done, ∀ b s, r₁.files (tableName n) = some b → fmt.readTable b = .ok s →
    r.cache n = some s
  tables : r.tables = done.filterMap fun n => (r₁.files (tableName n)).bind (salvagedInfo fmt n)

theorem mem_append_singleton_iff {k n : Nat} : k ∈ done ++ [n] ↔ k ∈ done ∨ k = n := by
  rw [mem_append, mem_singleton]

theorem Extracted.extend (h : Extracted fmt r₁ done r) (hn : n ∈ r₁.tableNumbers)
    (hmanifests : r'.manifests = r.manifests)
    (hnext : r'.nextFileNumber = r.nextFileNumber ∧ (Unreadable fmt r₁.files n → n ∈ done) ∨
      r'.nextFileNumber = r.nextFileNumber + 1 ∧ r.nextFileNumber + 1 < 2 ^ 64 ∧
        Unreadable fmt r₁.files n)
    (hlogs : ∀ m, r'.files (logName m) = r.files (logName m))
    (hssts : ∀ k, r'.files (sstName k) = r.files (sstName k) ∨ k = n ∧ r'.files (sstName k) = none)
    (hother : ∀ k ∈ r₁.tableNumbers, k ≠ n → r'.files (tableName k) = r.files (tableName k))
    (hleft : r'.files (tableName n) = (r₁.files (tableName n)).bind (salvaged fmt))
    (hsaved : ∀ b s, r₁.files (tableName n) = some b → fmt.readTable b = .ok s →
      s.status = none ∨ s.entries ≠ [] → (salvaged fmt b).isSome)
    (hcache : ∀ k, k ≠ n → r'.cache k = r.cache k)
    (hcached : ∀ s, r'.cache n = some s ↔
      ∃ b, r₁.files (tableName n) = some b ∧ fmt.readTable b = .ok s)
    (htables : r'.tables = r.tables ++
      ((r₁.files (tableName n)).bind (salvagedInfo fmt n)).toList) :
    Extracted fmt r₁ (done ++ [n]) r' := by
  refine ⟨?_, hmanifests.trans h.manifests, ?_, ?_, ?_, fun m => (hlogs m).trans (h.logs m), ?_, ?_,
    ?_, ?_, ?_, ?_, ?_⟩
  · intro k hk
    obtain hk | rfl := mem_append_singleton_iff.mp hk
    · exact h.sub k hk
    · exact hn
  · have := h.next_le
    omega
  · have := h.next_lt
    omega
  · simp only [mem_append_singleton_iff, or_and_right, exists_or, exists_eq_left]
    rw [← h.next_eq]
    have hle := h.next_le
    obtain ⟨heq, hdone⟩ | ⟨heq, -, hbad⟩ := hnext
    · rw [heq]
      refine ⟨Or.inl, fun hor => hor.elim id fun hbad => ?_⟩
      exact h.next_eq.mpr ⟨n, hdone hbad, hbad⟩
    · rw [heq]
      exact iff_of_true (by omega) (Or.inr hbad)
  · intro k
    obtain hk | ⟨rfl, hnone⟩ := hssts k
    · rw [hk]
      exact (h.ssts k).imp_right fun hdone => ⟨mem_append_left _ hdone.1, hdone.2⟩
    · exact Or.inr ⟨mem_append_singleton_iff.mpr (Or.inr rfl), hnone⟩
  · intro k hk hnot
    have hnot := not_or.mp (mem_append_singleton_iff.not.mp hnot)
    exact (hother k hk hnot.2).trans (h.kept k hk hnot.1)
  · intro k hk
    by_cases hkn : k = n
    · rw [hkn]
      exact hleft
    · have hdone := (mem_append_singleton_iff.mp hk).resolve_right hkn
      rw [hother k (h.sub k hdone) hkn]
      exact h.left k hdone
  · intro k hk
    by_cases hkn : k = n
    · rw [hkn]
      exact hsaved
    · exact h.saved k ((mem_append_singleton_iff.mp hk).resolve_right hkn)
  · intro k hk s hs
    by_cases hkn : k = n
    · rw [hkn] at hs ⊢
      exact (hcached s).mp hs
    · exact h.cache k hk s ((hcache k hkn).symm.trans hs)
  · intro k hk b s hb hread
    by_cases hkn : k = n
    · rw [hkn] at hb ⊢
      exact (hcached s).mpr ⟨b, hb, hread⟩
    · rw [hcache k hkn]
      exact h.cached k ((mem_append_singleton_iff.mp hk).resolve_right hkn) b s hb hread
  · rw [htables, h.tables, filterMap_append]
    congr 1

theorem salvaged_of_bad {b : Bytes} (hbad : ∀ s, fmt.readTable b ≠ .ok s) :
    salvaged fmt b = none ∧ salvagedInfo fmt n b = none := by
  grind [salvagedInfo, salvaged]

theorem salvaged_of_ok {b : Bytes} {s : Scan} (hread : fmt.readTable b = .ok s) :
    salvaged fmt b =
      (if s.status.isNone then some b else if s.entries.isEmpty then none else fmt.build s.entries) ∧
    salvagedInfo fmt n b = (salvaged fmt b).map fun b' => tableInfo n b'.length s.entries := by
  unfold salvagedInfo salvaged
  rw [hread]
  exact ⟨rfl, rfl⟩

theorem Extracted.iterator (h : Extracted fmt r₁ done r) (hn : n ∈ r₁.tableNumbers)
    {q : Repairer} (hcache : q.cache = r.cache)
    (hfile : q.files (tableName n) = r.files (tableName n)) :
    (∃ b s, r₁.files (tableName n) = some b ∧ fmt.readTable b = .ok s ∧
      q.newTableIterator fmt n = (s, { q with cache := Function.update r.cache n (some s) })) ∨
    (∀ b s, r₁.files (tableName n) = some b → fmt.readTable b ≠ .ok s) ∧
      ∃ e, q.newTableIterator fmt n = (⟨[], some e⟩, q) := by
  rw [← hcache]
  refine Repairer.newTableIterator_spec ?_ ?_
  · rw [hcache]
    exact h.cache n hn
  · rw [hcache, hfile]
    intro hnone
    by_cases hdone : n ∈ done
    · have hbad : ∀ b s, r₁.files (tableName n) = some b → fmt.readTable b ≠ .ok s := by
        intro b s hb hread
        rw [h.cached n hdone b s hb hread] at hnone
        cases hnone
      refine Or.inr ⟨?_, hbad⟩
      rw [h.left n hdone]
      cases hb : r₁.files (tableName n) with
      | none => rfl
      | some b => exact (salvaged_of_bad (n := n) (hbad b · hb)).1
    · exact Or.inl (h.kept n hn hdone)

theorem Extracted.withCache (h : Extracted fmt r₁ done r) {b : Bytes} {s : Scan}
    (hb : r₁.files (tableName n) = some b) (hread : fmt.readTable b = .ok s) :
    Extracted fmt r₁ done { r with cache := Function.update r.cache n (some s) } := by
  refine ⟨h.sub, h.manifests, h.next_le, h.next_lt, h.next_eq, h.logs, h.ssts, h.kept, h.left,
    h.saved, ?_, ?_, h.tables⟩
  · intro k hk t ht
    dsimp only at ht
    by_cases hkn : k = n
    · simp_all
    · rw [update_of_ne hkn] at ht
      exact h.cache k hk t ht
  · intro k hk b' t hb' ht
    dsimp only
    by_cases hkn : k = n
    · simp_all
    · rw [update_of_ne hkn]
      exact h.cached k hk b' t hb' ht

theorem repair_files (files : Files) {copy : Nat} {src : String}
    (hsrc : src = tableName n ∨ src = sstName n ∧ files (tableName n) = none) (hcopy : n ≠ copy)
    {after : Files}
    (hafter : after = Function.update (Function.update files (tableName copy) (some [])) src none) :
    (∀ k, k ≠ n → k ≠ copy → after (tableName k) = files (tableName k)) ∧
    after (tableName n) = none ∧ (∀ m, after (logName m) = files (logName m)) ∧
    ∀ k, after (sstName k) = files (sstName k) ∨ k = n ∧ after (sstName k) = none := by
  subst hafter
  have hlog : ∀ m, logName m ≠ src := by
    intro m
    obtain rfl | ⟨rfl, -⟩ := hsrc
    · exact (tableName_ne_logName n m).symm
    · exact (sstName_ne_logName n m).symm
  refine ⟨?_, ?_, ?_, ?_⟩
  · intro k hkn hkc
    have hk : tableName k ≠ src := by
      obtain rfl | ⟨rfl, -⟩ := hsrc
      · exact tableName_ne hkn
      · exact tableName_ne_sstName k n
    rw [update_of_ne hk, update_of_ne (tableName_ne hkc)]
  · obtain rfl | ⟨rfl, hnone⟩ := hsrc
    · rw [update_self]
    · rw [update_of_ne (tableName_ne_sstName n n), update_of_ne (tableName_ne hcopy)]
      exact hnone
  · intro m
    rw [update_of_ne (hlog m), update_of_ne (tableName_ne_logName copy m).symm]
  · intro k
    by_cases hk : sstName k = src
    · obtain rfl | ⟨rfl, -⟩ := hsrc
      · exact absurd hk.symm (tableName_ne_sstName n k)
      · refine Or.inr ⟨?_, ?_⟩
        · by_contra hkn
          exact sstName_ne hkn hk
        · rw [hk, update_self]
    · rw [update_of_ne hk, update_of_ne (tableName_ne_sstName copy k).symm]
      exact Or.inl rfl

theorem Repairer.repairTable_eq_some {src : String} {scanned : List (Bytes × Bytes)}
    (h : r.repairTable fmt src n scanned = some r') :
    r.nextFileNumber + 1 < 2 ^ 64 ∧ ∃ scan r₂,
      (({ r with nextFileNumber := r.nextFileNumber + 1 } : Repairer).setFile
        (tableName r.nextFileNumber) (some [])).newTableIterator fmt n = (scan, r₂) ∧
      (scan.entries = [] ∧ r' = r₂.archiveFile src ∨
        scan.entries ≠ [] ∧ ∃ b, fmt.build scan.entries = some b ∧
          r' = { ((r₂.archiveFile src).setFile (tableName r.nextFileNumber) none).setFile
              (tableName n) (some b) with
            tables := r₂.tables ++ [tableInfo n b.length scanned] }) := by
  unfold repairTable at h
  obtain ⟨⟨copy, r1⟩, hnew, h⟩ := Option.bind_eq_some_iff.mp h
  obtain ⟨rfl, hlt, rfl⟩ := newFileNumber_eq_some hnew
  refine ⟨hlt, ?_⟩
  dsimp only at h
  generalize (({ r with nextFileNumber := r.nextFileNumber + 1 } : Repairer).setFile
    (tableName r.nextFileNumber) (some [])).newTableIterator fmt n = p at h ⊢
  obtain ⟨scan, r2⟩ := p
  dsimp only at h
  refine ⟨scan, r2, rfl, ?_⟩
  split_ifs at h with hempty
  · exact Or.inl ⟨List.isEmpty_iff.mp hempty, (Option.some.inj h).symm⟩
  · obtain ⟨b, hb, h⟩ := Option.bind_eq_some_iff.mp h
    exact Or.inr ⟨fun hnil => hempty (List.isEmpty_iff.mpr hnil), b, hb, (Option.some.inj h).symm⟩

section

variable (h : Extracted fmt r₁ done r) (hn : n ∈ r₁.tableNumbers)
include h hn

section

variable (hcopy : ∀ k ∈ r₁.tableNumbers, k ≠ r.nextFileNumber) (hlt : r.nextFileNumber + 1 < 2 ^ 64)
  (hbad : Unreadable fmt r₁.files n) {src : String}
  (hsrc : src = tableName n ∨ src = sstName n ∧ r.files (tableName n) = none)
  {cache : Nat → Option Scan} (hcache : ∀ k, k ≠ n → cache k = r.cache k)
  (hcached : ∀ s, cache n = some s ↔
    ∃ b, r₁.files (tableName n) = some b ∧ fmt.readTable b = .ok s)
include hcopy hlt hbad hsrc hcache hcached

theorem Extracted.abandon (hnothing : (r₁.files (tableName n)).bind (salvaged fmt) = none ∧
      (r₁.files (tableName n)).bind (salvagedInfo fmt n) = none)
    (hsaved : ∀ b s, r₁.files (tableName n) = some b → fmt.readTable b = .ok s →
      s.status = none ∨ s.entries ≠ [] → (salvaged fmt b).isSome) :
    Extracted fmt r₁ (done ++ [n]) { r with
      cache := cache
      nextFileNumber := r.nextFileNumber + 1
      files := Function.update (Function.update r.files (tableName r.nextFileNumber) (some []))
        src none } := by
  obtain ⟨hkeep, hgone, hlogs, hssts⟩ := repair_files r.files hsrc (hcopy n hn) rfl
  refine h.extend hn rfl (Or.inr ⟨rfl, hlt, hbad⟩) hlogs hssts
    (fun k hk hkn => hkeep k hkn (hcopy k hk)) ?_ hsaved hcache hcached ?_
  · rw [hnothing.1]
    exact hgone
  · rw [hnothing.2]
    exact (append_nil _).symm

theorem Extracted.rebuild {b b' : Bytes}
    {s : Scan} (hb : r₁.files (tableName n) = some b) (hread : fmt.readTable b = .ok s)
    (hsalvaged : salvaged fmt b = some b') :
    Extracted fmt r₁ (done ++ [n]) { r with
      cache := cache
      nextFileNumber := r.nextFileNumber + 1
      files := Function.update (Function.update (Function.update
        (Function.update r.files (tableName r.nextFileNumber) (some [])) src none)
        (tableName r.nextFileNumber) none) (tableName n) (some b')
      tables := r.tables ++ [tableInfo n b'.length s.entries] } := by
  obtain ⟨hkeep, -, hlogs, hssts⟩ := repair_files r.files hsrc (hcopy n hn) rfl
  refine h.extend hn rfl (Or.inr ⟨rfl, hlt, hbad⟩) ?_ ?_ ?_ ?_ ?_ hcache hcached ?_
  · intro m
    dsimp only
    rw [update_of_ne (tableName_ne_logName n m).symm,
      update_of_ne (tableName_ne_logName _ m).symm]
    exact hlogs m
  · intro k
    dsimp only
    rw [update_of_ne (tableName_ne_sstName n k).symm,
      update_of_ne (tableName_ne_sstName _ k).symm]
    exact hssts k
  · intro k hk hkn
    dsimp only
    rw [update_of_ne (tableName_ne hkn), update_of_ne (tableName_ne (hcopy k hk))]
    exact hkeep k hkn (hcopy k hk)
  · rw [hb, Option.bind_some, hsalvaged]
    exact update_self _ _ _
  · intro b₂ t hb₂ _ _
    obtain rfl := Option.some.inj (hb.symm.trans hb₂)
    rw [hsalvaged]
    rfl
  · rw [hb, Option.bind_some, (salvaged_of_ok hread).2, hsalvaged]
    rfl

end

theorem Extracted.repair (hfresh : ∀ k ∈ r₁.tableNumbers, k < r₁.nextFileNumber ∨ k + 1 = 2 ^ 64)
    (hbad : Unreadable fmt r₁.files n) {src : String}
    (hsrc : src = tableName n ∨ src = sstName n ∧ r.files (tableName n) = none)
    {scanned : List (Bytes × Bytes)}
    (hscanned : ∀ b s, r₁.files (tableName n) = some b → fmt.readTable b = .ok s →
      scanned = s.entries ∧ s.status ≠ none)
    (hstep : r.repairTable fmt src n scanned = some r') :
    Extracted fmt r₁ (done ++ [n]) r' := by
  obtain ⟨hlt, scan, r2, hscan, hend⟩ := Repairer.repairTable_eq_some hstep
  have hle := h.next_le
  have hcopy : ∀ k ∈ r₁.tableNumbers, k ≠ r.nextFileNumber := by
    intro k hk
    have := hfresh k hk
    omega
  obtain ⟨b, s, hb, hread, hiter⟩ | ⟨hnone, e, hiter⟩ := h.iterator hn
      (q := ({ r with nextFileNumber := r.nextFileNumber + 1 } : Repairer).setFile
        (tableName r.nextFileNumber) (some []))
      rfl (update_of_ne (tableName_ne (hcopy n hn)) _ _)
  · obtain ⟨rfl, rfl⟩ := Prod.mk.inj (hiter.symm.trans hscan)
    obtain ⟨hscanned, hstatus⟩ := hscanned b s hb hread
    have hsalvaged := (salvaged_of_ok (n := n) hread).1
    rw [if_neg (by simpa using hstatus)] at hsalvaged
    have hcache : ∀ k, k ≠ n → Function.update r.cache n (some s) k = r.cache k :=
      fun k hk => update_of_ne hk _ _
    have hcached : ∀ t, Function.update r.cache n (some s) n = some t ↔
        ∃ b, r₁.files (tableName n) = some b ∧ fmt.readTable b = .ok t := by
      intro t
      rw [update_self, hb]
      constructor
      · intro ht
        obtain rfl := Option.some.inj ht
        exact ⟨b, rfl, hread⟩
      · intro ⟨b', hb', ht⟩
        obtain rfl := Option.some.inj hb'
        rw [Except.ok.inj (hread.symm.trans ht)]
    obtain ⟨hnil, rfl⟩ | ⟨hne, b', hbuild, rfl⟩ := hend
    · rw [if_pos (List.isEmpty_iff.mpr hnil)] at hsalvaged
      refine h.abandon hn hcopy hlt hbad hsrc hcache hcached ⟨?_, ?_⟩ ?_
      · rw [hb, Option.bind_some, hsalvaged]
      · rw [hb, Option.bind_some, (salvaged_of_ok hread).2, hsalvaged]
        rfl
      · intro b₂ t hb₂ ht hor
        obtain rfl := Option.some.inj (hb.symm.trans hb₂)
        obtain rfl := Except.ok.inj (hread.symm.trans ht)
        exact (hor.elim hstatus fun hor => hor hnil).elim
    · rw [if_neg (by simpa using hne), hbuild] at hsalvaged
      rw [hscanned]
      exact h.rebuild hn hcopy hlt hbad hsrc hcache hcached hb hread hsalvaged
  · obtain ⟨rfl, rfl⟩ := Prod.mk.inj (hiter.symm.trans hscan)
    obtain ⟨-, rfl⟩ | ⟨hne, -⟩ := hend
    · refine h.abandon hn hcopy hlt hbad hsrc (fun _ _ => rfl) ?_ ?_ ?_
      · intro s
        constructor
        · exact fun hs => h.cache n hn s hs
        · exact fun ⟨b, hb, hread⟩ => absurd hread (hnone b s hb)
      · cases hb : r₁.files (tableName n) with
        | none => exact ⟨rfl, rfl⟩
        | some b => exact salvaged_of_bad (hnone b · hb)
      · exact fun b s hb hread _ => absurd hread (hnone b s hb)
    · exact absurd rfl hne

theorem Extracted.skip (htable : r.files (tableName n) = none) (hsst : r.files (sstName n) = none) :
    Extracted fmt r₁ (done ++ [n]) r := by
  have hlost : n ∉ done → r₁.files (tableName n) = none := by
    intro hnot
    rw [← h.kept n hn hnot]
    exact htable
  have hnothing : (r₁.files (tableName n)).bind (salvaged fmt) = none := by
    by_cases hdone : n ∈ done
    · rw [← h.left n hdone]
      exact htable
    · rw [hlost hdone]
      rfl
  refine h.extend hn rfl (Or.inl ⟨rfl, ?_⟩) (fun _ => rfl) (fun _ => Or.inl rfl) (fun _ _ _ => rfl)
    (htable.trans hnothing.symm) ?_ (fun _ _ => rfl) ?_ ?_
  · intro hbad
    by_contra hdone
    unfold Unreadable at hbad
    rw [hlost hdone] at hbad
    obtain heq | ⟨hdone', -⟩ := h.ssts n
    · rw [← heq, hsst] at hbad
      cases hbad
    · exact hdone hdone'
  · intro b s hb hread
    by_cases hdone : n ∈ done
    · exact h.saved n hdone b s hb hread
    · rw [hlost hdone] at hb
      cases hb
  · intro s
    constructor
    · exact fun hs => h.cache n hn s hs
    · intro ⟨b, hb, hread⟩
      by_cases hdone : n ∈ done
      · exact h.cached n hdone b s hb hread
      · rw [hlost hdone] at hb
        cases hb
  · have hinfo : (r₁.files (tableName n)).bind (salvagedInfo fmt n) = none := by
      cases hb : r₁.files (tableName n) with
      | none => rfl
      | some b =>
        rw [hb, Option.bind_some] at hnothing
        rw [Option.bind_some, salvagedInfo, hnothing]
        cases fmt.readTable b <;> rfl
    rw [hinfo]
    exact (append_nil _).symm

theorem Extracted.keep {b : Bytes}
    {s : Scan} (hb : r₁.files (tableName n) = some b) (hread : fmt.readTable b = .ok s)
    (hstatus : s.status = none) :
    r.files (tableName n) = some b ∧
      Extracted fmt r₁ (done ++ [n]) { r with
        cache := Function.update r.cache n (some s)
        tables := r.tables ++ [tableInfo n b.length s.entries] } := by
  have hsalvaged : salvaged fmt b = some b := by
    rw [(salvaged_of_ok (n := n) hread).1, hstatus]
    rfl
  have hfile : r.files (tableName n) = some b := by
    by_cases hdone : n ∈ done
    · rw [h.left n hdone, hb, Option.bind_some, hsalvaged]
    · rw [h.kept n hn hdone, hb]
  refine ⟨hfile, (h.withCache hb hread).extend hn rfl (Or.inl ⟨rfl, ?_⟩) (fun _ => rfl)
    (fun _ => Or.inl rfl) (fun _ _ _ => rfl) ?_ ?_ (fun _ _ => rfl) ?_ ?_⟩
  · intro hbad
    unfold Unreadable at hbad
    rw [hb] at hbad
    exact absurd hstatus (hbad s hread)
  · rw [hb, Option.bind_some, hsalvaged]
    exact hfile
  · intro b' t hb' _ _
    obtain rfl := Option.some.inj (hb.symm.trans hb')
    rw [hsalvaged]
    rfl
  · simp_all
  · rw [hb, Option.bind_some, (salvaged_of_ok hread).2, hsalvaged]
    rfl

theorem Extracted.step (hfresh : ∀ k ∈ r₁.tableNumbers, k < r₁.nextFileNumber ∨ k + 1 = 2 ^ 64)
    (hstep : r.scanTable fmt n = some r') : Extracted fmt r₁ (done ++ [n]) r' := by
  unfold Repairer.scanTable at hstep
  cases hfile : (r.files (tableName n)).or (r.files (sstName n)) with
  | none =>
    obtain ⟨htable, hsst⟩ := Option.or_eq_none_iff.mp hfile
    have hsame : (r.archiveFile (tableName n)).archiveFile (sstName n) = r := by
      have htable' : Function.update r.files (tableName n) none = r.files := by
        rw [← htable, update_eq_self]
      have hsst' : Function.update r.files (sstName n) none = r.files := by
        rw [← hsst, update_eq_self]
      unfold Repairer.archiveFile Repairer.setFile
      dsimp only
      rw [htable', hsst']
    rw [hfile, hsame] at hstep
    obtain rfl := Option.some.inj hstep
    exact h.skip hn htable hsst
  | some found =>
    have hsrc : (if (r.files (tableName n)).isSome then tableName n else sstName n) = tableName n ∨
        (if (r.files (tableName n)).isSome then tableName n else sstName n) = sstName n ∧
          r.files (tableName n) = none := by
      cases r.files (tableName n) with
      | none => exact Or.inr ⟨rfl, rfl⟩
      | some b => exact Or.inl rfl
    rw [hfile] at hstep
    dsimp only at hstep
    generalize (if (r.files (tableName n)).isSome then tableName n else sstName n) = src
      at hsrc hstep
    obtain ⟨b, s, hb, hread, hiter⟩ | ⟨hnone, e, hiter⟩ := h.iterator hn (q := r) rfl rfl
    · rw [hiter] at hstep
      dsimp only at hstep
      split_ifs at hstep with hstatus
      · obtain rfl := Option.some.inj hstep
        obtain ⟨hsame, hkeep⟩ := h.keep hn hb hread (Option.isNone_iff_eq_none.mp hstatus)
        rw [hsame, Option.some_or] at hfile
        obtain rfl := Option.some.inj hfile
        exact hkeep
      · have hstatus : s.status ≠ none := fun hnone => hstatus (by rw [hnone]; rfl)
        have hall : ∀ b' t, r₁.files (tableName n) = some b' → fmt.readTable b' = .ok t → t = s := by
          intro b' t hb' ht
          obtain rfl := Option.some.inj (hb.symm.trans hb')
          exact Except.ok.inj (ht.symm.trans hread)
        refine (h.withCache hb hread).repair hn hfresh ?_ hsrc ?_ hstep
        · unfold Unreadable
          rw [hb]
          intro t ht
          rw [hall b t hb ht]
          exact hstatus
        · intro b' t hb' ht
          rw [hall b' t hb' ht]
          exact ⟨rfl, hstatus⟩
    · rw [hiter] at hstep
      refine h.repair hn hfresh ?_ hsrc ?_ hstep
      · unfold Unreadable
        cases hb : r₁.files (tableName n) with
        | some b => exact fun s hs => absurd hs (hnone b s hb)
        | none =>
          have hgone : r.files (tableName n) = none := by
            by_cases hdone : n ∈ done
            · rw [h.left n hdone, hb]
              rfl
            · rw [h.kept n hn hdone, hb]
          rw [hgone, Option.none_or] at hfile
          obtain heq | ⟨-, hnone⟩ := h.ssts n
          · dsimp only
            rw [← heq, hfile]
            rfl
          · rw [hnone] at hfile
            cases hfile
      · exact fun b s hb hread => absurd hread (hnone b s hb)

end

theorem extractMetaData_spec (hnext : r₁.nextFileNumber < 2 ^ 64) (htables : r₁.tables = [])
    (hcache : ∀ n ∈ r₁.tableNumbers, ∀ s, r₁.cache n = some s →
      ∃ b, r₁.files (tableName n) = some b ∧ fmt.readTable b = .ok s)
    (hfresh : ∀ k ∈ r₁.tableNumbers, k < r₁.nextFileNumber ∨ k + 1 = 2 ^ 64)
    (h : r₁.extractMetaData fmt = some r) : Extracted fmt r₁ r₁.tableNumbers r := by
  have hinit : Extracted fmt r₁ [] r₁ :=
    ⟨fun _ hn => absurd hn not_mem_nil, rfl, le_refl _, hnext, by simp, fun _ => rfl,
      fun _ => Or.inl rfl, fun _ _ _ => rfl, fun _ hn => absurd hn not_mem_nil,
      fun _ hn => absurd hn not_mem_nil, hcache, fun _ hn => absurd hn not_mem_nil, htables⟩
  unfold Repairer.extractMetaData at h
  refine Repairer.foldlM_invariant ?_ hinit h
  intro done n hn a b ha hb
  exact ha.step hn hfresh hb

end Extracted

/-! ## The repaired directory -/

theorem parseFileName_tableName {n : Nat} (h : n < 2 ^ 64) :
    parseFileName (tableName n) = some ⟨n, .tableFile⟩ := parseFileName_numbered h rfl

theorem parseFileName_sstName {n : Nat} (h : n < 2 ^ 64) :
    parseFileName (sstName n) = some ⟨n, .tableFile⟩ := parseFileName_numbered h rfl

theorem parseFileName_logName {n : Nat} (h : n < 2 ^ 64) :
    parseFileName (logName n) = some ⟨n, .logFile⟩ := parseFileName_numbered h rfl

theorem writeDescriptor_spec (crc : Checksum) (comparatorName : String) {r : Repairer}
    (hmanifests : ∀ name ∈ r.manifests, ∃ n, parseFileName name = some ⟨n, .descriptorFile⟩) :
    r.writeDescriptor crc comparatorName (manifestName 1) =
      some (logFile crc [(r.descriptor comparatorName).encodeTo]) ∧
    r.writeDescriptor crc comparatorName "CURRENT" = some (bytesOf (manifestName 1 ++ "\n")) ∧
    ∀ name p, parseFileName name = some p → p.type = .tableFile ∨ p.type = .logFile →
      r.writeDescriptor crc comparatorName name = r.files name := by
  have hfold : ∀ (l : List String) (q : Repairer), l.foldl Repairer.archiveFile q =
      { q with files := fun x => if x ∈ l then none else q.files x } := by
    intro l
    induction l with
    | nil => intro q; simp
    | cons name l ih =>
      intro q
      rw [foldl_cons, ih]
      unfold Repairer.archiveFile Repairer.setFile
      dsimp only
      congr 1
      funext x
      by_cases hx : x = name
      · simp [hx]
      · simp [hx]
  have htemp : manifestName 1 ≠ tempName 1 ∧ manifestName 1 ≠ "CURRENT" ∧ "CURRENT" ≠ tempName 1 := by
    decide +kernel
  unfold Repairer.writeDescriptor
  rw [hfold]
  refine ⟨?_, ?_, ?_⟩
  · simp only [Repairer.setFile_files]
    rw [update_of_ne htemp.1, update_of_ne htemp.2.1, update_self]
    rfl
  · simp only [Repairer.setFile_files]
    rw [update_of_ne htemp.2.2, update_self]
  · intro name p hp htype
    have hne : ∀ other q, parseFileName other = some q → q.type ≠ .tableFile → q.type ≠ .logFile →
        name ≠ other := by
      intro other q hq htable hlog heq
      rw [heq, hq] at hp
      obtain rfl := Option.some.inj hp
      exact htype.elim htable hlog
    have hnot : name ∉ r.manifests := by
      intro hmem
      obtain ⟨n, hn⟩ := hmanifests name hmem
      exact hne name _ hn nofun nofun rfl
    simp only [Repairer.setFile_files]
    rw [update_of_ne (hne (tempName 1) ⟨1, .tempFile⟩ (by decide +kernel) nofun nofun),
      update_of_ne (hne "CURRENT" ⟨0, .currentFile⟩ (by decide +kernel) nofun nofun),
      update_of_ne (hne (manifestName 1) ⟨1, .descriptorFile⟩ (by decide +kernel) nofun nofun),
      if_neg hnot]

section Repaired

variable {K : Type} [LinearOrder K] {fmt : TableFormat} {crc : Checksum} {keys : KeyCodec K}
  {files : Files} {children : List String}

/-- What a repair of `files` has left, with the `Repairer` at its end. -/
structure Repaired (fmt : TableFormat) (crc : Checksum) (keys : KeyCodec K) (files : Files)
    (children : List String) (r : Repairer) (files' : Files) : Prop where
  next_pos : 1 ≤ r.nextFileNumber
  next_lt : r.nextFileNumber < 2 ^ 64
  next_eq : 1 < r.nextFileNumber ↔
    (∃ n, Repairer.Numbered children n ∧ 1 ≤ n ∧ n + 1 < 2 ^ 64) ∨
    (∃ m < 2 ^ 64, (files (logName m)).isSome) ∨ ∃ n < 2 ^ 64, Unreadable fmt files n
  noLogs : ∀ n < 2 ^ 64, files' (logName n) = none
  table : ∀ n < 2 ^ 64, ∀ b, files (tableName n) = some b →
    files' (tableName n) = salvaged fmt b ∧ (∀ t, salvagedInfo fmt n b = some t → t ∈ r.tables) ∧
      ∀ s, fmt.readTable b = .ok s → s.status = none ∨ s.entries ≠ [] → (salvaged fmt b).isSome
  built : ∀ m < 2 ^ 64, ∀ file, files (logName m) = some file → logEntries crc keys file ≠ [] →
    ∃ n b, BuiltFrom fmt crc keys files m b ∧ files' (tableName n) = some b ∧
      tableInfo n b.length (logEntries crc keys file) ∈ r.tables
  origin : ∀ t ∈ r.tables, ∃ n b, salvagedInfo fmt n b = some t ∧
    files' (tableName n) = salvaged fmt b ∧
      (n < r.nextFileNumber ∨ n + 1 = 2 ^ 64 ∧ files (tableName n) = some b) ∧
      (n < 2 ^ 64 ∧ files (tableName n) = some b ∨ ∃ m < 2 ^ 64, BuiltFrom fmt crc keys files m b)

theorem salvaged_build {es : List (Bytes × Bytes)} {b : Bytes} (hbuild : fmt.build es = some b)
    (n : Nat) : salvaged fmt b = some b ∧
      salvagedInfo fmt n b = some (tableInfo n b.length es) := by
  have hread := fmt.readTable_build es b hbuild
  have hsalvaged : salvaged fmt b = some b := (salvaged_of_ok (n := n) hread).1
  refine ⟨hsalvaged, ?_⟩
  rw [(salvaged_of_ok hread).2, hsalvaged]
  rfl

theorem Repairer.Found.mem {r : Repairer} (h : Found files children r) (hlist : Lists files children) :
    (∀ n ∈ r.tableNumbers, n < 2 ^ 64 ∧ (n < r.nextFileNumber ∨ n + 1 = 2 ^ 64)) ∧
    (∀ n < 2 ^ 64, (files (tableName n)).isSome ∨ (files (sstName n)).isSome → n ∈ r.tableNumbers) ∧
    (∀ m ∈ r.logs, m < 2 ^ 64) ∧ ∀ m < 2 ^ 64, (files (logName m)).isSome → m ∈ r.logs := by
  refine ⟨?_, ?_, ?_, ?_⟩
  · intro n hn
    obtain ⟨name, hname, hp⟩ := (h.tableNumbers n).mp hn
    have hlt := parseFileName_lt hp
    refine ⟨hlt, ?_⟩
    have hnext := h.next_le n ⟨name, hname, _, hp, nofun, rfl⟩
    by_cases hmax : n + 1 = 2 ^ 64
    · exact Or.inr hmax
    · dsimp only at hlt
      rw [Nat.mod_eq_of_lt (by omega)] at hnext
      exact Or.inl hnext
  · intro n hn hsome
    rw [h.tableNumbers]
    obtain hsome | hsome := hsome
    · exact ⟨_, (hlist _).mpr hsome, parseFileName_tableName hn⟩
    · exact ⟨_, (hlist _).mpr hsome, parseFileName_sstName hn⟩
  · intro m hm
    obtain ⟨name, hname, hp⟩ := (h.logs m).mp hm
    exact parseFileName_lt hp
  · intro m hm hsome
    exact (h.logs m).mpr ⟨_, (hlist _).mpr hsome, parseFileName_logName hm⟩

theorem Repairer.Found.one_lt_next {r : Repairer} (h : Found files children r) :
    1 < r.nextFileNumber ↔ ∃ n, Numbered children n ∧ 1 ≤ n ∧ n + 1 < 2 ^ 64 := by
  have hlt : ∀ n, Numbered children n → n < 2 ^ 64 := by
    rintro n ⟨name, _, p, hp, _, hn⟩
    rw [← hn]
    exact parseFileName_lt hp
  constructor
  · grind [h.next_eq, Nat.mod_eq_of_lt, Nat.mod_self]
  · rintro ⟨n, hn, hpos, hmax⟩
    have hle := h.next_le n hn
    rw [Nat.mod_eq_of_lt hmax] at hle
    omega

theorem run_spec (comparatorName : String) {dbname : String} {r : Repairer}
    (hlist : Lists files children)
    (h : Repairer.run fmt crc keys dbname files children = some (.ok r)) :
    Repaired fmt crc keys files children r (r.writeDescriptor crc comparatorName) ∧
      r.writeDescriptor crc comparatorName (manifestName 1) =
        some (logFile crc [(r.descriptor comparatorName).encodeTo]) ∧
      r.writeDescriptor crc comparatorName "CURRENT" = some (bytesOf (manifestName 1 ++ "\n")) := by
  unfold Repairer.run at h
  cases hfind : Repairer.findFiles dbname files children with
  | error s =>
    rw [hfind] at h
    cases Option.some.inj h
  | ok r0 =>
    rw [hfind] at h
    obtain ⟨r1, hconvert, h⟩ := Option.bind_eq_some_iff.mp h
    obtain ⟨r, hextract, h⟩ := Option.bind_eq_some_iff.mp h
    obtain rfl := Except.ok.inj (Option.some.inj h)
    have hfound := Repairer.findFiles_found hfind
    obtain ⟨htables, htables', hlogs, hlogs'⟩ := hfound.mem hlist
    have hconv := convertLogFilesToTables_spec hfound.next_lt hfound.cache hconvert
    have hle01 := hconv.next_le
    have hlt1 := hconv.next_lt
    -- tables that were there are as before
    have hsame : ∀ n ∈ r0.tableNumbers, r1.files (tableName n) = files (tableName n) := by
      intro n hn
      rw [← hfound.files]
      refine hconv.kept n ?_
      have := (htables n hn).2
      omega
    have hfresh : ∀ n ∈ r1.tableNumbers, n < r1.nextFileNumber ∨ n + 1 = 2 ^ 64 := by
      intro n hn
      obtain hn | ⟨hrange, -⟩ := hconv.new n hn
      · have := (htables n hn).2
        omega
      · exact Or.inl hrange.2
    have hext := extractMetaData_spec hlt1 (hconv.tables.trans hfound.tables)
      (fun n _ s hs => (hconv.cache n s hs).2.2) hfresh hextract
    have hle1 := hext.next_le
    obtain ⟨hmanifest, hcurrent, hwrite⟩ := writeDescriptor_spec crc comparatorName (r := r) (by
      rw [hext.manifests, hconv.manifests]
      exact hfound.manifests)
    have htable' : ∀ n < 2 ^ 64, r.writeDescriptor crc comparatorName (tableName n) =
        r.files (tableName n) := fun n hn =>
      hwrite _ _ (parseFileName_tableName hn) (Or.inl rfl)
    have hlt2 : ∀ n ∈ r1.tableNumbers, n < 2 ^ 64 := by
      intro n hn
      have := hfresh n hn
      omega
    refine ⟨⟨hfound.next_pos.trans (hle01.trans hle1), hext.next_lt, ?_, ?_, ?_, ?_, ?_⟩, hmanifest,
      hcurrent⟩
    · have hone := hfound.next_pos
      have h0 := hfound.one_lt_next
      have h1 : r0.nextFileNumber < r1.nextFileNumber ↔ ∃ m < 2 ^ 64, (files (logName m)).isSome := by
        rw [hconv.next_eq, hfound.files]
        constructor
        · intro ⟨m, hm, hsome⟩
          exact ⟨m, hlogs m hm, hsome⟩
        · intro ⟨m, hm, hsome⟩
          exact ⟨m, hlogs' m hm hsome, hsome⟩
      have h2 : r1.nextFileNumber < r.nextFileNumber ↔ ∃ n < 2 ^ 64, Unreadable fmt files n := by
        have hiff : ∀ n ∈ r0.tableNumbers, Unreadable fmt r1.files n ↔ Unreadable fmt files n := by
          intro n hn
          unfold Unreadable
          rw [hsame n hn, hconv.ssts, hfound.files]
        rw [hext.next_eq]
        constructor
        · intro ⟨n, hn, hbad⟩
          obtain hn0 | ⟨-, m, -, b, ⟨file, -, -, hbuild⟩, hb⟩ := hconv.new n hn
          · exact ⟨n, (htables n hn0).1, (hiff n hn0).mp hbad⟩
          · unfold Unreadable at hbad
            rw [hb] at hbad
            exact absurd rfl (hbad _ (fmt.readTable_build _ b hbuild))
        · intro ⟨n, hn, hbad⟩
          have hn0 : n ∈ r0.tableNumbers := by
            refine htables' n hn ?_
            unfold Unreadable at hbad
            cases hb : files (tableName n) with
            | none =>
              rw [hb] at hbad
              exact Or.inr hbad
            | some b => exact Or.inl rfl
          exact ⟨n, hconv.old n hn0, (hiff n hn0).mpr hbad⟩
      rw [← h0, ← h1, ← h2]
      omega
    · intro n hn
      rw [hwrite _ _ (parseFileName_logName hn) (Or.inr rfl), hext.logs, hconv.logs]
      split_ifs with hmem
      · rfl
      · cases hfile : r0.files (logName n) with
        | none => rfl
        | some file =>
          rw [hfound.files] at hfile
          exact absurd (hlogs' n hn (by rw [hfile]; rfl)) hmem
    · intro n hn b hb
      have hn0 : n ∈ r0.tableNumbers := htables' n hn (Or.inl (by rw [hb]; rfl))
      have hn1 := hconv.old n hn0
      have hb1 : r1.files (tableName n) = some b := (hsame n hn0).trans hb
      refine ⟨?_, ?_, fun s => hext.saved n hn1 b s hb1⟩
      · rw [htable' n hn, hext.left n hn1, hb1, Option.bind_some]
      · grind [hext.tables]
    · intro m hm file hfile hne
      obtain ⟨n, hn1, -, b, hb, hb1⟩ := hconv.built m
        (hlogs' m hm (by rw [hfile]; rfl)) file (by rw [hfound.files]; exact hfile) hne
      obtain ⟨file', hfile', -, hbuild⟩ := hb
      rw [hfound.files] at hfile'
      obtain rfl := Option.some.inj (hfile.symm.trans hfile')
      obtain ⟨hsalvaged, hinfo⟩ := salvaged_build hbuild n
      refine ⟨n, b, ⟨file, hfile, hne, hbuild⟩, ?_, ?_⟩
      · rw [htable' n (hlt2 n hn1), hext.left n hn1, hb1, Option.bind_some, hsalvaged]
      · rw [hext.tables, mem_filterMap]
        exact ⟨n, hn1, by rw [hb1, Option.bind_some, hinfo]⟩
    · intro t ht
      rw [hext.tables, mem_filterMap] at ht
      obtain ⟨n, hn, ht⟩ := ht
      obtain ⟨b, hb, ht⟩ := Option.bind_eq_some_iff.mp ht
      have hleft : r.writeDescriptor crc comparatorName (tableName n) = salvaged fmt b := by
        rw [htable' n (hlt2 n hn), hext.left n hn, hb, Option.bind_some]
      obtain hn0 | ⟨hrange, m, hm, b', hb', heq⟩ := hconv.new n hn
      · grind
      · grind [Option.some.inj, hfound.files]

end Repaired

end Salvage

end LevelDB
