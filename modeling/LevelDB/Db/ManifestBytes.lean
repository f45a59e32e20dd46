/-
  The manifest as a file of bytes (`VersionSet::Recover` in `db/version_set.cc`).

  `Recover` reads the manifest with a `log::Reader` that has no reporter. What the reader drops
  leaves no trace: `Recover` sees the records that are left, and looks at nothing but them.
-/
import LevelDB.Db.Manifest
import LevelDB.Log.ReadBack
import LevelDB.Version.EditCodec

namespace LevelDB

open List Log

variable {K V : Type} [LinearOrder K] [Inhabited K]

/-! ## Keys and names as bytes -/

namespace KeyCodec

variable (keys : KeyCodec K)

def encode (k : InternalKey K) : Bytes :=
  if k = .cleared then [] else keys.toBytes k.userKey ++ encodeFixed64 k.tag

/-- An internal key from its bytes. With fewer than eight, where `ExtractUserKey` must not be
    called, there is no user key. -/
def decode (bytes : Bytes) : InternalKey K :=
  ⟨keys.ofBytes (bytes.take (bytes.length - 8)), decodeFixed64 (bytes.drop (bytes.length - 8))⟩

end KeyCodec

theorem textOf_bytesOf {text : String} (h : ∀ c ∈ text.toList, c.toNat < 256) :
    textOf (bytesOf text) = text := by
  unfold textOf bytesOf
  have hchars : (text.toList.map fun c => UInt8.ofNat c.toNat).map (fun b => Char.ofNat b.toNat) =
      text.toList := by
    rw [List.map_map]
    refine (map_congr_left ?_).trans (List.map_id _)
    intro c hc
    show Char.ofNat (UInt8.ofNat c.toNat).toNat = c
    rw [UInt8.toNat_ofNat_of_lt' (show c.toNat < 2 ^ 8 from h c hc), Char.ofNat_toNat]
  rw [hchars, String.ofList_toList]

/-! ## Edits as records of bytes -/

section Edits

variable (keys : KeyCodec K)

def VersionEdit.toRecord (edit : VersionEdit K) : EditRecord where
  comparator := edit.comparator.map bytesOf
  logNumber := edit.logNumber
  prevLogNumber := edit.prevLogNumber
  nextFileNumber := edit.nextFileNumber
  lastSequence := edit.lastSequence
  compactPointers := edit.compactPointers.map fun p => (p.1, keys.encode p.2)
  deletedFiles := edit.deletedFiles
  newFiles := edit.newFiles.map fun p =>
    (p.1, ⟨p.2.number, p.2.fileSize, keys.encode p.2.smallest, keys.encode p.2.largest⟩)

def EditRecord.toEdit (r : EditRecord) : VersionEdit K where
  comparator := r.comparator.map textOf
  logNumber := r.logNumber
  prevLogNumber := r.prevLogNumber
  nextFileNumber := r.nextFileNumber
  lastSequence := r.lastSequence
  compactPointers := r.compactPointers.map fun p => (p.1, keys.decode p.2)
  deletedFiles := r.deletedFiles
  newFiles := r.newFiles.map fun p =>
    (p.1, ⟨p.2.number, p.2.fileSize, keys.decode p.2.smallest, keys.decode p.2.largest⟩)

def VersionEdit.encodeTo (edit : VersionEdit K) : Bytes := (edit.toRecord keys).encodeTo

variable {keys}

end Edits

/-! ## Recovering from bytes -/

/-- The end of `VersionSet::Recover`, after the records. -/
def Replay.finish (vs : VersionSet K) (st : Replay K) : Except Status (VersionSet K) :=
  match st.nextFile, st.logNumber, st.lastSequence with
  | none, _, _ => .error (.corruptionErr "no meta-nextfile entry in descriptor")
  | _, none, _ => .error (.corruptionErr "no meta-lognumber entry in descriptor")
  | _, _, none => .error (.corruptionErr "no last-sequence-number entry in descriptor")
  | some nextFile, some logNumber, some lastSequence =>
    .ok { vs with
      current := st.builder.saveTo vs.current
      compactPointer := st.compactPointer
      manifestFileNumber := nextFile
      nextFileNumber := nextFile + 1
      lastSequence := lastSequence
      logNumber := logNumber
      prevLogNumber := st.prevLogNumber.getD 0 }

section Recover

variable (crc : Checksum) (keys : KeyCodec K) (cfg : Config K V)

/-- The loop of `VersionSet::Recover` over the records that the reader returns. -/
def replayRecords : List Bytes → Replay K → Except Status (Replay K)
  | [], st => .ok st
  | record :: rest, st =>
    match decodeFrom record with
    | .error s => .error s
    | .ok r =>
      match (r.toEdit keys).comparator.filter (· ≠ cfg.comparatorName) with
      | some name =>
        .error (.invalidArgument
          (name ++ " does not match existing comparator : " ++ cfg.comparatorName))
      | none => replayRecords rest (st.apply (r.toEdit keys))

/-- `VersionSet::Recover` on the bytes of the manifest that CURRENT names. The reader verifies
    checksums and has no reporter. -/
def VersionSet.recoverFile (vs : VersionSet K) (file : Bytes) :
    Option (Except Status (VersionSet K)) :=
  (readLog crc true file).map fun (records, _) =>
    match replayRecords keys cfg (records.map Prod.snd)
        ⟨.empty, vs.compactPointer, none, none, none, none⟩ with
    | .error s => .error s
    | .ok st => st.finish vs

variable {keys cfg}

/-- `Recover` accepts the record: it decodes, and a comparator name is the right one. -/
def AcceptedRecord (keys : KeyCodec K) (cfg : Config K V) (record : Bytes) : Prop :=
  ∃ r, decodeFrom record = .ok r ∧
    (r.toEdit keys).comparator.filter (· ≠ cfg.comparatorName) = none

def SetsNumber (number : EditRecord → Option Nat) (records : List Bytes) : Prop :=
  ∃ record ∈ records, ∃ r, decodeFrom record = .ok r ∧ (number r).isSome

structure Complete (keys : KeyCodec K) (cfg : Config K V) (records : List Bytes) : Prop where
  accepted : ∀ record ∈ records, AcceptedRecord keys cfg record
  nextFile : SetsNumber EditRecord.nextFileNumber records
  logNumber : SetsNumber EditRecord.logNumber records
  lastSequence : SetsNumber EditRecord.lastSequence records

theorem replayRecords_cons_ok {record : Bytes} {rest : List Bytes} {st st' : Replay K}
    (h : replayRecords keys cfg (record :: rest) st = .ok st') :
    ∃ r, decodeFrom record = .ok r ∧
      (r.toEdit keys).comparator.filter (· ≠ cfg.comparatorName) = none ∧
      replayRecords keys cfg rest (st.apply (r.toEdit keys)) = .ok st' := by
  rw [replayRecords] at h
  cases hd : decodeFrom record with
  | error s => rw [hd] at h; cases h
  | ok r =>
    grind

theorem replayRecords_ok_iff {records : List Bytes} {st : Replay K} :
    (∃ st', replayRecords keys cfg records st = .ok st') ↔
      ∀ record ∈ records, AcceptedRecord keys cfg record := by
  induction records generalizing st with
  | nil => exact iff_of_true ⟨st, rfl⟩ (by simp)
  | cons record records ih =>
    rw [forall_mem_cons]
    constructor
    · rintro ⟨st', h⟩
      obtain ⟨r, hd, hc, hrest⟩ := replayRecords_cons_ok h
      exact ⟨⟨r, hd, hc⟩, ih.mp ⟨st', hrest⟩⟩
    · rintro ⟨⟨r, hd, hc⟩, hrest⟩
      obtain ⟨st', h⟩ := ih.mpr hrest
      refine ⟨st', ?_⟩
      rw [replayRecords, hd]
      dsimp only
      rw [hc]
      exact h

theorem replayRecords_number {number : EditRecord → Option Nat} {get : Replay K → Option Nat}
    (happly : ∀ st r, get (st.apply (r.toEdit keys)) = (number r).or (get st))
    {records : List Bytes} {st st' : Replay K}
    (h : replayRecords keys cfg records st = .ok st') :
    (get st').isSome ↔ (get st).isSome ∨ SetsNumber number records := by
  induction records generalizing st with
  | nil =>
    injection h with h
    simp [SetsNumber, h]
  | cons record records ih =>
    obtain ⟨r, hd, -, hrest⟩ := replayRecords_cons_ok h
    have hhead : (∃ r, decodeFrom record = .ok r ∧ (number r).isSome) ↔ (number r).isSome := by
      constructor
      · rintro ⟨r', hd', hsome⟩
        injection hd.symm.trans hd' with hr
        rwa [hr]
      · exact fun hsome => ⟨r, hd, hsome⟩
    rw [ih hrest, happly, Option.isSome_or, Bool.or_eq_true]
    unfold SetsNumber
    rw [exists_mem_cons_iff, hhead, or_comm (a := (number r).isSome = true), or_assoc]

omit [Inhabited K] in
theorem finish_ok_iff {vs : VersionSet K} {st : Replay K} :
    (∃ vs', st.finish vs = .ok vs') ↔
      st.nextFile.isSome ∧ st.logNumber.isSome ∧ st.lastSequence.isSome := by
  unfold Replay.finish
  cases st.nextFile <;> cases st.logNumber <;> cases st.lastSequence <;> simp

theorem recoverFile_ok_iff {vs : VersionSet K} {file : Bytes} {out : List (Nat × Bytes)}
    {reports : List Report} (hread : readLog crc true file = some (out, reports)) :
    (∃ vs', vs.recoverFile crc keys cfg file = some (.ok vs')) ↔
      Complete keys cfg (out.map Prod.snd) := by
  unfold VersionSet.recoverFile
  rw [hread, Option.map_some]
  dsimp only
  cases hreplay : replayRecords keys cfg (out.map Prod.snd)
      ⟨.empty, vs.compactPointer, none, none, none, none⟩ with
  | error s =>
    refine iff_of_false ?_ ?_
    · rintro ⟨vs', h⟩
      cases h
    · intro hcomplete
      obtain ⟨st', hok⟩ := replayRecords_ok_iff.mpr hcomplete.accepted
      rw [hreplay] at hok
      cases hok
  | ok st =>
    have hnumber : ∀ {number : EditRecord → Option Nat} {get : Replay K → Option Nat},
        (∀ st r, get (st.apply (r.toEdit keys)) = (number r).or (get st)) →
        get ⟨.empty, vs.compactPointer, none, none, none, none⟩ = none →
        ((get st).isSome ↔ SetsNumber number (out.map Prod.snd)) := by
      intro number get happly hnone
      rw [replayRecords_number happly hreplay, hnone]
      simp
    have hok : (∃ vs', some (st.finish vs) = some (.ok vs')) ↔ ∃ vs', st.finish vs = .ok vs' := by
      simp only [Option.some.injEq]
    rw [hok, finish_ok_iff, hnumber (fun _ _ => rfl) rfl, hnumber (fun _ _ => rfl) rfl,
      hnumber (fun _ _ => rfl) rfl]
    constructor
    · rintro ⟨h1, h2, h3⟩
      exact ⟨replayRecords_ok_iff.mp ⟨st, hreplay⟩, h1, h2, h3⟩
    · intro h
      exact ⟨h.nextFile, h.logNumber, h.lastSequence⟩

/-- A record that the reader drops makes `Recover` fail exactly when what is left is not
    complete. -/
theorem recover_drop_iff (crc : Checksum) (keys : KeyCodec K) (cfg : Config K V)
    (vs : VersionSet K) (file : Bytes) :
    (∀ out reports, readLog crc true file = some (out, reports) → reports ≠ [] →
        ∃ s, vs.recoverFile crc keys cfg file = some (.error s)) ↔
      ∀ out reports, readLog crc true file = some (out, reports) → reports ≠ [] →
        ¬Complete keys cfg (out.map Prod.snd) := by
  have hone : ∀ out reports, readLog crc true file = some (out, reports) →
      ((∃ s, vs.recoverFile crc keys cfg file = some (.error s)) ↔
        ¬Complete keys cfg (out.map Prod.snd)) := by
    intro out reports hread
    obtain ⟨result, hresult⟩ : ∃ result, vs.recoverFile crc keys cfg file = some result := by
      unfold VersionSet.recoverFile
      rw [hread]
      exact ⟨_, rfl⟩
    have hiff : (∃ vs', vs.recoverFile crc keys cfg file = some (.ok vs')) ↔ _ :=
      recoverFile_ok_iff crc hread
    rw [← hiff, hresult]
    cases result with
    | error s => simp
    | ok vs' => simp
  exact forall_congr' fun out => forall_congr' fun reports => forall_congr' fun hread =>
    forall_congr' fun _ => hone out reports hread

end Recover

/-! ## A manifest that has lost two edits -/

def oneKeyFile (number : Nat) : FileMetaData Bytes where
  number := number
  fileSize := 100
  smallest := ⟨[97], 257⟩
  largest := ⟨[97], 257⟩

/-- Three calls of `LogAndApply`, each of which adds a file to level 0. -/
def threeEdits (cfg : Config Bytes String) : Applied Bytes String :=
  let add (number : Nat) : VersionEdit Bytes := { newFiles := [(0, oneKeyFile number)] }
  let a₁ := VersionSet.logAndApply cfg { VersionSet.init with nextFileNumber := 8 } .empty (add 5)
  let a₂ := VersionSet.logAndApply cfg a₁.versions a₁.disk (add 6)
  VersionSet.logAndApply cfg a₂.versions a₂.disk (add 7)

def bytewise : Config Bytes String := .oneBlock "leveldb.BytewiseComparator" 2097152

def threeEditsFile : Bytes :=
  logFile crc32c ((((threeEdits bytewise).disk.manifests 0).getD .empty).records.map
    (VersionEdit.encodeTo .bytes))

def damagedManifest : Bytes := threeEditsFile.set 91 0

/-- The reader reports the damage, and `Recover` installs a version without two of the three
    files. -/
theorem recover_drops_edits :
    ((threeEdits bytewise).versions.current.files 0).map (·.number) = [5, 6, 7] ∧
    (∃ out, readLog crc32c true damagedManifest =
      some (out, [(78, .corruptionErr "checksum mismatch")])) ∧
    ∃ vs, VersionSet.init.recoverFile crc32c .bytes bytewise damagedManifest = some (.ok vs) ∧
      (vs.current.files 0).map (·.number) = [5] := by
  have hreports : (readLog crc32c true damagedManifest).map Prod.snd =
      some [(78, .corruptionErr "checksum mismatch")] := by decide +kernel
  have hfiles : (VersionSet.init.recoverFile crc32c .bytes bytewise damagedManifest).map
      (Except.map fun vs => (vs.current.files 0).map (·.number)) = some (.ok [5]) := by
    decide +kernel
  refine ⟨by decide +kernel, ?_, ?_⟩
  · simp_all
  · obtain ⟨result, hrecover, hok⟩ := Option.map_eq_some_iff.mp hfiles
    cases result with
    | error s => cases hok
    | ok vs =>
      injection hok with hnumbers
      exact ⟨vs, hrecover, hnumbers⟩

end LevelDB
