/-
  Repairs of real table files (`db/repair.cc`, `table/table.cc`, `table/table_builder.cc`).

  Tables that `TableBuilder` writes are read back by `Table::Open` and an iteration to the end, so
  the two are a `TableFormat`, as long as files are smaller than 4 GiB.
-/
import Mathlib.Algebra.Group.Action.Defs
import Mathlib.Algebra.Order.BigOperators.Group.List
import LevelDB.Db.SalvageOpen
import LevelDB.Table.Lookup

namespace LevelDB

open List Option

namespace TableLayout

variable {crc : Checksum} {opt : TableBuilderOptions} {es : List (Bytes × Bytes)} {file : Bytes}
  {blocks : List IndexedBlock} {metaEntries : List (Bytes × Bytes)} {footer : Footer}

theorem length_blocks_le (L : TableLayout crc opt es file blocks metaEntries footer)
    (hfile : file.length < 2 ^ 32) : blocks.length ≤ file.length := by
  obtain ⟨I, hbytes, hentries⟩ := exists_index blocks (L.indexBytes_lt hfile)
  have hle := I.length_entries_le
  have hfits := L.index.fits
  rw [hentries, length_map, hbytes] at hle
  unfold indexBytes at hle
  omega

theorem length_entries_le (L : TableLayout crc opt es file blocks metaEntries footer)
    (hfile : file.length < 2 ^ 32) (hinterval : 1 ≤ opt.blockRestartInterval) :
    es.length ≤ file.length * file.length := by
  have hblock : ∀ x ∈ blocks, x.entries.length ≤ file.length := by
    intro x hx
    obtain ⟨B, hbytes, hB⟩ := L.exists_data hfile hinterval hx
    have hle := B.length_entries_le
    have hfits := (L.data x hx).fits
    rw [hB, hbytes] at hle
    omega
  calc es.length = (blocks.map fun x => x.entries.length).sum := by
        rw [L.entries, length_flatMap]
    _ ≤ (blocks.map fun x => x.entries.length).length • file.length :=
        sum_le_card_nsmul _ _ (List.forall_mem_map.mpr hblock)
    _ ≤ file.length * file.length := by
        rw [length_map]
        exact Nat.mul_le_mul_right _ (L.length_blocks_le hfile)

end TableLayout

namespace Salvage

open Cursor

def Small (file : Bytes) (entries : List (Bytes × Bytes)) : Prop :=
  file.length < 2 ^ 32 ∧ ∀ e ∈ entries, e.1.length < 2 ^ 32

instance (file : Bytes) (entries : List (Bytes × Bytes)) : Decidable (Small file entries) :=
  inferInstanceAs (Decidable (_ ∧ _))

/-- `Table::Open` and an iteration to the end. -/
def readTable (crc : Checksum) (file : Bytes) : Except Status Scan :=
  match TableReader.openTable crc internalTableOptions file file.length with
  | .error status => .error status
  | .ok t =>
    let iter := t.iterator crc false
    let result := iter.scan (file.length * file.length + 1) (iter.seekToFirst t.newIterator)
    if Small file result.1 then .ok ⟨result.1, iter.error result.2⟩
    else .error ⟨.notSupported, "file size"⟩

/-- `TableBuilder`, on keys that it can take. -/
def buildTable (crc : Checksum) (es : List (Bytes × Bytes)) : Option Bytes :=
  let file := (TableBuilder.build crc internalBuilderOptions es).file
  if Small file es ∧ ∀ e ∈ es, 8 ≤ e.1.length then some file else none

theorem readTable_buildTable {crc : Checksum} {es : List (Bytes × Bytes)} {b : Bytes}
    (h : buildTable crc es = some b) : readTable crc b = .ok ⟨es, none⟩ := by
  unfold buildTable at h
  dsimp only at h
  split_ifs at h with hsmall
  obtain rfl := Option.some.inj h
  obtain ⟨hsize, -⟩ := hsmall.1
  have hinterval : 1 ≤ internalBuilderOptions.blockRestartInterval := by decide
  obtain ⟨-, blocks, metaEntries, footer, L⟩ := table_layout crc internalBuilderOptions es
  obtain ⟨I, hbytes, hentries⟩ := TableLayout.exists_index blocks (L.indexBytes_lt hsize)
  -- Nothing is sought, so the keys need not be in order.
  have hcmp : internalTableOptions.comparator = TableOrder.internal.comparator := rfl
  have hserves : TwoLevelIterator.Serves
      ((TableLayout.table crc internalTableOptions _ blocks footer).levels crc false)
      _ _ _ (fun _ => False) _ I.Tracks _ :=
    L.serves hsize hinterval hcmp false (fun _ h => h.elim) (fun _ h => h.elim) hbytes hentries
  have hfaithful := hserves.faithful
  rw [TableLayout.flatMap_part, ← L.entries] at hfaithful
  have hle := L.length_entries_le hsize hinterval
  obtain ⟨hscan, herror⟩ := hfaithful.scan_eq
    (hfaithful.seekToFirst (L.tracks_new internalTableOptions false hbytes hentries))
    (show es.length < 0 + (_ + 1) by rw [Nat.zero_add]; exact Nat.lt_succ_of_le hle)
  rw [drop_zero] at hscan
  unfold readTable
  rw [L.openTable_eq (by omega)]
  show (if Small _ (Machine.scan _ _ _).1 then
    Except.ok (Scan.mk (Machine.scan _ _ _).1 (Machine.error _ (Machine.scan _ _ _).2)) else _) = _
  unfold TableReader.iterator
  rw [hscan, herror, if_pos hsmall.1]

def tableFormat (crc : Checksum) : TableFormat where
  readTable := readTable crc
  build := buildTable crc
  readTable_build := fun _ _ => readTable_buildTable
  key_length := by
    intro b s h e he
    unfold readTable at h
    cases hopen : TableReader.openTable crc internalTableOptions b b.length with
    | error status => rw [hopen] at h; cases h
    | ok t =>
      rw [hopen] at h
      dsimp only at h
      split_ifs at h with hsmall
      obtain rfl := Except.ok.inj h
      exact hsmall.2 e he

/-! ## Directories -/

section Directories

open Log

def oneFile (name : String) (contents : Bytes) : Files :=
  fun n => if n = name then some contents else none

theorem lists_oneFile (name : String) (contents : Bytes) : Lists (oneFile name contents) [name] := by
  intro n
  unfold oneFile
  by_cases h : n = name
  · simp [h]
  · simp [h]

def sampleEntry : Bytes × Bytes := (lookupKeyBytes [107] 3, [118])

def sampleTable : Bytes := (TableBuilder.build crc32c internalBuilderOptions [sampleEntry]).file

def emptyTable : Bytes := (TableBuilder.build crc32c internalBuilderOptions []).file

/-- `RepairDB` on a directory with one file. -/
def repairOne (name : String) (contents : Bytes) : Option (Except Status Repairer) :=
  Repairer.run (tableFormat crc32c) crc32c KeyCodec.bytes "db" (oneFile name contents) [name]

abbrev repairedFiles (r : Repairer) : Files := r.writeDescriptor crc32c bytewise.comparatorName

theorem exists_repaired {name : String} {contents : Bytes} {α : Type} (f : Repairer → α) {a : α}
    (h : (repairOne name contents).map (Except.map f) = some (.ok a)) :
    ∃ r, repairOne name contents = some (.ok r) ∧ f r = a := by
  obtain ⟨result, hrun, hok⟩ := map_eq_some_iff.mp h
  cases result with
  | error s => cases hok
  | ok r => exact ⟨r, hrun, Except.ok.inj hok⟩

def decoded (files : Files) : Except Status (Option (List Bool)) :=
  (currentManifest files).map fun file =>
    (readLog crc32c true file).map fun p => p.1.map fun record => (decodeFrom record.2).isOk

theorem not_manifestDecodes {files : Files} (h : decoded files = .ok (some [false])) :
    ¬ManifestDecodes crc32c files := by
  rintro ⟨file, records, reports, hfile, hread, hdecode⟩
  unfold decoded at h
  rw [hfile] at h
  have hrecords := Except.ok.inj h
  dsimp only at hrecords
  rw [hread] at hrecords
  replace hrecords := Option.some.inj hrecords
  obtain ⟨p, rfl, hp⟩ := map_eq_singleton_iff.mp hrecords
  obtain ⟨edit, hedit⟩ := hdecode p mem_cons_self
  rw [hedit] at hp
  cases hp

/-- An empty table is kept, and the database is not opened again. -/
theorem empty_table_not_opened :
    ∃ files', repairDb (tableFormat crc32c) crc32c KeyCodec.bytes bytewise.comparatorName "db"
        (oneFile (tableName 5) emptyTable) [tableName 5] = some (.ok files') ∧
      ¬ManifestDecodes crc32c files' ∧
      (openDb crc32c KeyCodec.bytes bytewise files' [tableName 5, "MANIFEST-000001", "CURRENT"]).map
        (Except.map fun _ => ()) = some (.error (.corruptionErr "VersionEdit: bad InternalKey")) := by
  have heval : (repairOne (tableName 5) emptyTable).map (Except.map fun r =>
      (decoded (repairedFiles r),
        (openDb crc32c KeyCodec.bytes bytewise (repairedFiles r)
          [tableName 5, "MANIFEST-000001", "CURRENT"]).map (Except.map fun _ => ()))) =
      some (.ok (.ok (some [false]),
        some (.error (.corruptionErr "VersionEdit: bad InternalKey")))) := by
    decide +kernel
  obtain ⟨r, hrun, hr⟩ := exists_repaired _ heval
  have hfiles := congrArg (Option.map (Except.map repairedFiles)) hrun
  exact ⟨repairedFiles r, hfiles, not_manifestDecodes (congrArg Prod.fst hr), congrArg Prod.snd hr⟩

theorem tableName_of_oneFile {n m : Nat} {b contents : Bytes}
    (h : oneFile (tableName m) contents (tableName n) = some b) : n = m ∧ b = contents := by
  unfold oneFile at h
  split_ifs at h with hname
  refine ⟨?_, (Option.some.inj h).symm⟩
  by_contra hne
  exact tableName_ne hne hname

theorem readTable_sampleTable : readTable crc32c sampleTable = .ok ⟨[sampleEntry], none⟩ :=
  readTable_buildTable (show buildTable crc32c [sampleEntry] = some sampleTable by decide +kernel)

theorem repaired_opens_one_entry :
    ∃ files', repairDb (tableFormat crc32c) crc32c KeyCodec.bytes bytewise.comparatorName "db"
        (oneFile (tableName 5) sampleTable) [tableName 5] = some (.ok files') ∧
      ManifestDecodes crc32c files' ∧
      ∃ vs, openDb crc32c KeyCodec.bytes bytewise files' [tableName 5] = some (.ok vs) := by
  have heval : (repairOne (tableName 5) sampleTable).map (Except.map fun _ => ()) =
      some (.ok ()) := by
    decide +kernel
  obtain ⟨r, hrun, -⟩ := exists_repaired _ heval
  have hfiles := congrArg (Option.map (Except.map repairedFiles)) hrun
  have hname : bytewise.comparatorName.toList.all (fun c => decide (c.toNat < 256)) = true := by
    decide +kernel
  refine ⟨repairedFiles r, hfiles, (repaired_opens_iff
    (fun c hc => of_decide_eq_true (List.all_eq_true.mp hname c hc)) (by decide +kernel)
    (lists_oneFile (tableName 5) sampleTable) hfiles).mpr ?_⟩
  intro n _ b s hb hread _
  obtain ⟨-, rfl⟩ := tableName_of_oneFile hb
  obtain rfl := Except.ok.inj (readTable_sampleTable.symm.trans hread)
  exact ⟨sampleEntry, mem_cons_self, by decide +kernel⟩

/-- A readable table under the name `.sst` is archived, and its entry is found nowhere. -/
theorem sst_table_archived :
    ∃ r, repairOne (sstName 5) sampleTable = some (.ok r) ∧
      (tableFormat crc32c).readTable sampleTable = .ok ⟨[sampleEntry], none⟩ ∧
      parseFileName (sstName 5) = some ⟨5, .tableFile⟩ ∧
      ¬Reachable (tableFormat crc32c) (r.descriptor bytewise.comparatorName) (repairedFiles r)
        sampleEntry := by
  have heval : (repairOne (sstName 5) sampleTable).map (Except.map fun r => r.tables.length) =
      some (.ok 0) := by
    decide +kernel
  obtain ⟨r, hrun, hr⟩ := exists_repaired _ heval
  refine ⟨r, hrun, readTable_sampleTable, by decide +kernel, ?_⟩
  rintro ⟨p, hp, -⟩
  obtain ⟨t, ht, -⟩ := List.mem_map.mp hp
  rw [length_eq_zero_iff.mp hr] at ht
  cases ht

theorem repair_keeps_entries_ldb :
    ∃ r, repairOne (tableName 5) sampleTable = some (.ok r) ∧
      Reachable (tableFormat crc32c) (r.descriptor bytewise.comparatorName) (repairedFiles r)
        sampleEntry := by
  have heval : (repairOne (tableName 5) sampleTable).map (Except.map fun _ => ()) =
      some (.ok ()) := by
    decide +kernel
  obtain ⟨r, hrun, -⟩ := exists_repaired _ heval
  have hparse : parseFileName (tableName 5) = some ⟨5, .tableFile⟩ := by decide +kernel
  have hkeeps := (repair_keeps_entries_iff bytewise.comparatorName
    (lists_oneFile (tableName 5) sampleTable) hrun).mpr (by
      intro name hname n hparsed hne
      rw [mem_singleton.mp hname] at hparsed hne
      obtain rfl := congrArg ParsedFile.number (Option.some.inj (hparse.symm.trans hparsed))
      exact absurd rfl hne)
  exact ⟨r, hrun, hkeeps (tableName 5) mem_cons_self 5 hparse sampleTable _
    (if_pos rfl) readTable_sampleTable sampleEntry mem_cons_self⟩

end Directories

end Salvage

end LevelDB
