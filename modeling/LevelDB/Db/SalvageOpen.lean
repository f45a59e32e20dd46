/-
  Opening a repaired directory (`db/repair.cc`, `db/version_set.cc`, `db/db_impl.cc`).

  The manifest of a repair is made from scans of the tables, and read by `VersionSet::Recover`
  when the database is opened again. The two do not agree on everything.
-/
import LevelDB.Db.Salvage

namespace LevelDB

open List Option

namespace Salvage

open Log

/-! ## Opening -/

/-- The name in CURRENT, of which the first 1024 bytes are read: the start of
    `VersionSet::Recover`. -/
def currentName (files : Files) : Except Status String :=
  match files "CURRENT" with
  | none => .error (.notFoundErr "CURRENT")
  | some contents =>
    let contents := contents.take 1024
    if contents.getLast? = some 10 then .ok (textOf contents.dropLast)
    else .error (.corruptionErr "CURRENT file does not end with newline")

def currentManifest (files : Files) : Except Status Bytes :=
  match currentName files with
  | .error s => .error s
  | .ok name =>
    match files name with
    | none => .error (.notFoundErr name)
    | some file => .ok file

section Open

variable {K V : Type} [LinearOrder K] [Inhabited K] (crc : Checksum) (keys : KeyCodec K)
  (cfg : Config K V)

/-- `DB::Open`, with the version set it leaves. The log that it creates takes a file number.
    Logs that are listed but cannot be opened are passed over. A directory without CURRENT, and
    one with logs to replay, is not followed any further. -/
def openDb (files : Files) (children : List String) : Option (Except Status (VersionSet K)) :=
  if (files "CURRENT").isNone then none
  else
    match currentManifest files with
    | .error s => some (.error s)
    | .ok file =>
      match (VersionSet.init : VersionSet K).recoverFile crc keys cfg file with
      | none => none
      | some (.error s) => some (.error s)
      | some (.ok vs) =>
        let logs := ((children.filterMap parseFileName).filter fun p => decide (p.type = .logFile) &&
          (decide (vs.logNumber ≤ p.number) ||
            (decide (vs.prevLogNumber ≠ 0) && decide (p.number = vs.prevLogNumber)))).map
              ParsedFile.number |>.insertionSort (· ≤ ·)
        if logs.any fun n => (files (logName n)).isSome then none
        else
          let vs := logs.foldl VersionSet.markFileNumberUsed vs
          some (.ok { vs with nextFileNumber := vs.nextFileNumber + 1 })

end Open

/-! ## What is in the manifest -/

theorem parsedSequence_lt {key : Bytes} {sequence : Nat} (h : parsedSequence key = some sequence) :
    key ≠ [] ∧ sequence < 2 ^ 56 := by
  unfold parsedSequence at h
  dsimp only at h
  split_ifs at h with hshort
  obtain rfl := Option.some.inj h
  refine ⟨fun hnil => hshort (by rw [hnil]; decide), ?_⟩
  have hlt : decodeFixed64 (key.drop (key.length - 8)) < 256 ^ 8 := by
    refine (LittleEndian.leNat_lt _).trans_le (Nat.pow_le_pow_right (by decide) ?_)
    exact (length_take_le 8 _)
  omega

/-- `ScanTable` has seen these entries. -/
structure Seen (number fileSize : Nat) (seen : List (Bytes × Bytes)) (st : TableInfo × Bool) :
    Prop where
  number : st.1.metaData.number = number
  fileSize : st.1.metaData.fileSize = fileSize
  sequence : st.1.maxSequence < 2 ^ 56
  empty : st.2 = true → st.1.metaData.smallest = [] ∧ st.1.metaData.largest = [] ∧
    ∀ e ∈ seen, parsedSequence e.1 = none
  bounds : st.2 = false → (∃ e ∈ seen, (parsedSequence e.1).isSome) ∧
    (∃ e ∈ seen, st.1.metaData.smallest = e.1 ∧ e.1 ≠ []) ∧
    ∃ e ∈ seen, st.1.metaData.largest = e.1 ∧ e.1 ≠ []

theorem Seen.step {number fileSize : Nat} {seen : List (Bytes × Bytes)} {st : TableInfo × Bool}
    (h : Seen number fileSize seen st) (e : Bytes × Bytes) :
    Seen number fileSize (seen ++ [e]) (scanEntry st e) := by
  have hold : ∀ x ∈ seen, x ∈ seen ++ [e] := fun x hx => mem_append_left _ hx
  have hnew : e ∈ seen ++ [e] := mem_append_right _ mem_cons_self
  unfold scanEntry
  cases hparsed : parsedSequence e.1 with
  | none =>
    refine ⟨h.number, h.fileSize, h.sequence, ?_, ?_⟩
    · intro hempty
      obtain ⟨hsmallest, hlargest, hnone⟩ := h.empty hempty
      refine ⟨hsmallest, hlargest, fun x hx => ?_⟩
      obtain hx | hx := mem_append.mp hx
      · exact hnone x hx
      · rw [mem_singleton.mp hx, hparsed]
    · intro hbounds
      obtain ⟨⟨x, hx, hsome⟩, ⟨y, hy, hsmallest⟩, z, hz, hlargest⟩ := h.bounds hbounds
      exact ⟨⟨x, hold x hx, hsome⟩, ⟨y, hold y hy, hsmallest⟩, z, hold z hz, hlargest⟩
  | some sequence =>
    obtain ⟨hne, hlt⟩ := parsedSequence_lt hparsed
    refine ⟨h.number, h.fileSize, ?_, nofun, fun _ => ⟨⟨e, hnew, by rw [hparsed]; rfl⟩, ?_, e, hnew, rfl, hne⟩⟩
    · dsimp only
      split_ifs
      · exact hlt
      · exact h.sequence
    · dsimp only
      split_ifs with hempty
      · exact ⟨e, hnew, rfl, hne⟩
      · obtain ⟨-, ⟨y, hy, hsmallest⟩, -⟩ := h.bounds (by simpa using hempty)
        exact ⟨y, hold y hy, hsmallest⟩

theorem Seen.foldl {number fileSize : Nat} (es : List (Bytes × Bytes))
    {seen : List (Bytes × Bytes)} {st : TableInfo × Bool} (h : Seen number fileSize seen st) :
    Seen number fileSize (seen ++ es) (es.foldl scanEntry st) := by
  induction es generalizing seen st with
  | nil => rwa [append_nil]
  | cons e es ih =>
    rw [foldl_cons, append_cons]
    exact ih (h.step e)

theorem tableInfo_spec (number fileSize : Nat) (es : List (Bytes × Bytes)) :
    ∃ empty, Seen number (fileSize % 2 ^ 64) es (tableInfo number fileSize es, empty) := by
  have hinit : Seen number (fileSize % 2 ^ 64) []
      (⟨⟨number, fileSize % 2 ^ 64, [], []⟩, 0⟩, true) :=
    ⟨rfl, rfl, Nat.two_pow_pos 56, fun _ => ⟨rfl, rfl, by simp⟩, nofun⟩
  exact ⟨_, Seen.foldl es hinit⟩

section Tables

variable {K : Type} [LinearOrder K] {fmt : TableFormat} {crc : Checksum} {keys : KeyCodec K}
  {files files' : Files} {children : List String} {r : Repairer}

theorem salvagedInfo_eq_some {n : Nat} {b : Bytes} {t : TableInfo}
    (h : salvagedInfo fmt n b = some t) :
    ∃ s b', fmt.readTable b = .ok s ∧ (s.status = none ∨ s.entries ≠ []) ∧
      salvaged fmt b = some b' ∧ t = tableInfo n b'.length s.entries ∧
      ∃ s', fmt.readTable b' = .ok s' ∧ s'.entries = s.entries := by
  cases hread : fmt.readTable b with
  | error e =>
    rw [(salvaged_of_bad fun s hs => by rw [hread] at hs; cases hs).2] at h
    cases h
  | ok s =>
    obtain ⟨hsalvaged, hinfo⟩ := salvaged_of_ok (n := n) hread
    rw [hinfo] at h
    obtain ⟨b', hb', rfl⟩ := map_eq_some_iff.mp h
    refine ⟨s, b', rfl, ?_⟩
    rw [hb'] at hsalvaged
    split_ifs at hsalvaged with hstatus hempty
    · simp_all
    · refine ⟨Or.inr ?_, hb', rfl, _, fmt.readTable_build _ _ hsalvaged.symm, rfl⟩
      intro hnil
      exact hempty (by rw [hnil]; rfl)

omit [LinearOrder K] in
theorem parsedSequence_internalKey {k : InternalKey K} {sequence : Nat} {type : ValueType}
    (htag : k.tag = packSequenceAndType sequence type) (hlt : sequence < 2 ^ 56) :
    parsedSequence (keys.internalKey k) = some sequence := by
  have htype : type.toNat ≤ 1 := by cases type <;> decide
  rw [packSequenceAndType_eq] at htag
  have hlen : (keys.internalKey k).length = (keys.toBytes k.userKey).length + 8 := by
    unfold KeyCodec.internalKey
    rw [length_append, length_encodeFixed64]
  have hnum : decodeFixed64 ((keys.internalKey k).drop ((keys.internalKey k).length - 8)) = k.tag := by
    have hread := decodeFixed64_encodeFixed64 (show k.tag < 2 ^ 64 by omega) []
    rw [append_nil] at hread
    rw [hlen, Nat.add_sub_cancel, KeyCodec.internalKey, drop_left, hread]
  unfold parsedSequence
  dsimp only
  rw [hnum, if_neg (by omega), if_neg (by omega)]
  exact congrArg some (by omega)

omit [LinearOrder K] in
theorem exists_of_mem_inserted {first : Nat} {ops : List (Op K Bytes)} {e : Entry K Bytes}
    (h : e ∈ inserted first ops) :
    ∃ sequence type, e.key.tag = packSequenceAndType sequence type ∧ sequence < 2 ^ 56 := by
  induction ops generalizing first with
  | nil => cases h
  | cons op ops ih =>
    rw [inserted] at h
    obtain rfl | h := mem_cons.mp h
    · have hlt : first % 2 ^ 56 < 2 ^ 56 := Nat.mod_lt _ (by decide)
      cases op with
      | put k v => exact ⟨_, .value, rfl, hlt⟩
      | delete k => exact ⟨_, .deletion, rfl, hlt⟩
    · exact ih h

theorem parsedSequence_logEntries {file : Bytes} {e : Bytes × Bytes}
    (he : e ∈ logEntries crc keys file) : (parsedSequence e.1).isSome := by
  unfold logEntries at he
  obtain ⟨x, hx, rfl⟩ := List.mem_map.mp he
  rw [scan_mem, MemTable.mem_addAll] at hx
  obtain hx | hx := hx
  · cases hx
  · obtain ⟨record, -, hx⟩ := mem_flatMap.mp hx
    obtain ⟨sequence, type, htag, hlt⟩ := exists_of_mem_inserted hx
    rw [parsedSequence_internalKey htag hlt]
    rfl

theorem Repaired.mem_tables (h : Repaired fmt crc keys files children r files') {t : TableInfo}
    (ht : t ∈ r.tables) :
    ∃ n s b', t = tableInfo n b'.length s.entries ∧
      (n < r.nextFileNumber ∨ n + 1 = 2 ^ 64 ∧ ∃ b, files (tableName n) = some b ∧
        fmt.readTable b = .ok s ∧ (s.status = none ∨ s.entries ≠ [])) ∧
      (∀ e ∈ s.entries, e.1.length < 2 ^ 32) ∧
      (files' (tableName n) = some b' ∧ ∃ s', fmt.readTable b' = .ok s' ∧ s'.entries = s.entries) ∧
      ((n < 2 ^ 64 ∧ ∃ b, files (tableName n) = some b ∧ fmt.readTable b = .ok s ∧
          (s.status = none ∨ s.entries ≠ [])) ∨
        ∃ m < 2 ^ 64, ∃ file, files (logName m) = some file ∧ s.entries = logEntries crc keys file ∧
          s.entries ≠ []) := by
  obtain ⟨n, b, hinfo, hfile, hn, hsource⟩ := h.origin t ht
  obtain ⟨s, b', hread, hkept, hsalvaged, rfl, hread'⟩ := salvagedInfo_eq_some hinfo
  refine ⟨n, s, b', rfl, hn.imp_right fun ⟨hmax, hb⟩ => ⟨hmax, b, hb, hread, hkept⟩,
    fmt.key_length b s hread, ⟨hfile.trans hsalvaged, hread'⟩, ?_⟩
  obtain ⟨hlt, hb⟩ | ⟨m, hm, file, hfile, hne, hbuild⟩ := hsource
  · exact Or.inl ⟨hlt, b, hb, hread, hkept⟩
  · have hs := Except.ok.inj (hread.symm.trans (fmt.readTable_build _ b hbuild))
    subst hs
    exact Or.inr ⟨m, hm, file, hfile, rfl, hne⟩

theorem Repaired.kept (h : Repaired fmt crc keys files children r files') {n : Nat}
    (hn : n < 2 ^ 64) {b : Bytes} {s : Scan} (hb : files (tableName n) = some b)
    (hread : fmt.readTable b = .ok s) (hs : s.status = none ∨ s.entries ≠ []) :
    ∃ b' : Bytes, tableInfo n b'.length s.entries ∈ r.tables := by
  obtain ⟨-, hinfo, hsalvaged⟩ := h.table n hn b hb
  obtain ⟨b', hb'⟩ := isSome_iff_exists.mp (hsalvaged s hread hs)
  refine ⟨b', hinfo _ ?_⟩
  rw [(salvaged_of_ok hread).2, hb']
  rfl

end Tables

/-! ## The manifest of a repair -/

section Descriptor

variable {K : Type} [LinearOrder K] {fmt : TableFormat} {crc : Checksum} {keys : KeyCodec K}
  {files files' : Files} {children : List String} {r : Repairer} {comparatorName : String}

theorem lastSequence_lt {tables : List TableInfo} (h : ∀ t ∈ tables, t.maxSequence < 2 ^ 56)
    {m : Nat} (hm : m < 2 ^ 56) :
    tables.foldl (fun m t => if m < t.maxSequence then t.maxSequence else m) m < 2 ^ 56 := by
  induction tables generalizing m with
  | nil => exact hm
  | cons t tables ih =>
    grind

section

variable (h : Repaired fmt crc keys files children r files')
include h

section

variable (hlen : comparatorName.length < 2 ^ 32)
include hlen

theorem Repaired.fields :
    ∀ f ∈ (r.descriptor comparatorName).fields, f.Fits ∨
      ∃ t ∈ r.tables, t.metaData.smallest = [] ∧ f = .newFile 0 t.metaData ∧ f.Rejected := by
  have hname : (bytesOf comparatorName).length = comparatorName.length := by
    unfold bytesOf
    rw [length_map, String.length_toList]
  have hsequence : ∀ t ∈ r.tables, t.maxSequence < 2 ^ 56 := by
    intro t ht
    obtain ⟨n, s, b', rfl, -⟩ := h.mem_tables ht
    obtain ⟨empty, hseen⟩ := tableInfo_spec n b'.length s.entries
    exact hseen.sequence
  intro f hf
  unfold EditRecord.fields at hf
  simp only [EditRecord.optionalFields, Repairer.descriptor, toList_some, toList_none,
    map_cons, map_nil, append_nil, cons_append, nil_append, mem_cons,
    List.map_map, List.mem_map] at hf
  obtain rfl | rfl | rfl | rfl | ⟨t, ht, rfl⟩ := hf
  · exact Or.inl (hname.trans_lt hlen)
  · exact Or.inl (Nat.two_pow_pos 64)
  · exact Or.inl h.next_lt
  · refine Or.inl ((lastSequence_lt hsequence (Nat.two_pow_pos 56)).trans (by decide))
  · obtain ⟨n, s, b', rfl, hn, hkeys, -⟩ := h.mem_tables ht
    obtain ⟨empty, hseen⟩ := tableInfo_spec n b'.length s.entries
    have hnext := h.next_lt
    have hnumber : (tableInfo n b'.length s.entries).metaData.number < 2 ^ 64 := by
      rw [hseen.number]
      omega
    have hsize : (tableInfo n b'.length s.entries).metaData.fileSize < 2 ^ 64 := by
      rw [hseen.fileSize]
      exact Nat.mod_lt _ (by decide)
    have hlevel : 0 < kNumLevels := by decide
    cases empty with
    | true =>
      have hsmallest := (hseen.empty rfl).1
      exact Or.inr ⟨_, ht, hsmallest, rfl, newFile_rejected hlevel hnumber hsize hsmallest⟩
    | false =>
      obtain ⟨-, ⟨x, hx, hsmallest, hxne⟩, y, hy, hlargest, hyne⟩ := hseen.bounds rfl
      refine Or.inl ⟨hlevel, hnumber, hsize, ⟨?_, ?_⟩, ?_, ?_⟩
      · exact fun hnil => hxne (hsmallest.symm.trans hnil)
      · exact (congrArg List.length hsmallest).trans_lt (hkeys x hx)
      · exact fun hnil => hyne (hlargest.symm.trans hnil)
      · exact (congrArg List.length hlargest).trans_lt (hkeys y hy)

theorem Repaired.decodes_iff :
    (∃ edit, decodeFrom (r.descriptor comparatorName).encodeTo = .ok edit) ↔
      ∀ t ∈ r.tables, t.metaData.smallest ≠ [] := by
  have hfields := h.fields hlen
  rw [decodeFrom_ok_iff fun f hf => (hfields f hf).imp_right fun ⟨_, _, _, _, hr⟩ => hr]
  constructor
  · intro hfits t ht hnil
    have hmem : Field.newFile 0 t.metaData ∈ (r.descriptor comparatorName).fields := by
      refine mem_append_right _ (List.mem_map.mpr ⟨(0, t.metaData), ?_, rfl⟩)
      exact List.mem_map.mpr ⟨t, ht, rfl⟩
    obtain ⟨-, -, -, ⟨hne, -⟩, -⟩ := hfits _ hmem
    exact hne hnil
  · grind

theorem Repaired.decodeFrom_eq {edit : EditRecord}
    (hok : decodeFrom (r.descriptor comparatorName).encodeTo = .ok edit) :
    edit = r.descriptor comparatorName := by
  have hfits := (decodeFrom_ok_iff fun f hf =>
    (h.fields hlen f hf).imp_right fun ⟨_, _, _, _, hr⟩ => hr).mp ⟨edit, hok⟩
  have heq := decodeFrom_encodeTo (r := r.descriptor comparatorName) ⟨hfits, List.Pairwise.nil⟩
  exact Except.ok.inj (hok.symm.trans heq)

end

theorem Repaired.bounds_iff :
    (∀ t ∈ r.tables, t.metaData.smallest ≠ []) ↔
      ∀ n < 2 ^ 64, ∀ b s, files (tableName n) = some b → fmt.readTable b = .ok s →
        s.status = none ∨ s.entries ≠ [] → ∃ e ∈ s.entries, (parsedSequence e.1).isSome := by
  constructor
  · intro hne n hn b s hb hread hs
    obtain ⟨b', ht⟩ := h.kept hn hb hread hs
    obtain ⟨empty, hseen⟩ := tableInfo_spec n b'.length s.entries
    cases empty with
    | true => exact absurd (hseen.empty rfl).1 (hne _ ht)
    | false => exact (hseen.bounds rfl).1
  · intro hparsed t ht hnil
    obtain ⟨n, s, b', rfl, -, -, -, hsource⟩ := h.mem_tables ht
    obtain ⟨empty, hseen⟩ := tableInfo_spec n b'.length s.entries
    have hsome : ∃ e ∈ s.entries, (parsedSequence e.1).isSome := by
      obtain ⟨hn, b, hb, hread, hs⟩ | ⟨m, -, file, -, hentries, hne⟩ := hsource
      · exact hparsed n hn b s hb hread hs
      · obtain ⟨e, he⟩ := exists_mem_of_ne_nil _ hne
        exact ⟨e, he, parsedSequence_logEntries (hentries ▸ he)⟩
    cases empty with
    | true =>
      obtain ⟨e, he, hsome⟩ := hsome
      rw [(hseen.empty rfl).2.2 e he] at hsome
      cases hsome
    | false =>
      obtain ⟨-, ⟨x, -, hsmallest, hxne⟩, -⟩ := hseen.bounds rfl
      exact hxne (hsmallest.symm.trans hnil)

end

end Descriptor

/-! ## Opening it -/

theorem manifestName_ne {n m : Nat} (h : n ≠ m) : manifestName n ≠ manifestName m := by
  intro heq
  have hlist := congrArg String.toList heq
  unfold manifestName at hlist
  rw [String.toList_append, String.toList_append] at hlist
  exact h (sixDigits_injective (String.toList_inj.mp (append_cancel_left hlist)))

theorem currentName_repaired {files : Files}
    (hcurrent : files "CURRENT" = some (bytesOf (manifestName 1 ++ "\n"))) :
    currentName files = .ok (manifestName 1) := by
  unfold currentName
  rw [hcurrent]
  decide +kernel

section Opened

variable {K V : Type} [LinearOrder K] [Inhabited K] {fmt : TableFormat} {crc : Checksum}
  {keys : KeyCodec K} {cfg : Config K V} {files files' : Files} {children children' : List String}
  {r : Repairer}

omit [LinearOrder K] [Inhabited K] in
theorem foldl_markFileNumberUsed (logs : List Nat) (vs : VersionSet K) :
    (logs.foldl VersionSet.markFileNumberUsed vs).manifestFileNumber = vs.manifestFileNumber ∧
      vs.nextFileNumber ≤ (logs.foldl VersionSet.markFileNumberUsed vs).nextFileNumber := by
  induction logs generalizing vs with
  | nil => exact ⟨rfl, le_refl _⟩
  | cons n logs ih =>
    grind [VersionSet.markFileNumberUsed]

section

variable (h : Repaired fmt crc keys files children r files')
include h

theorem openDb_repaired (hmanifest : files' (manifestName 1) =
      some (logFile crc [(r.descriptor cfg.comparatorName).encodeTo]))
    (hcurrent : files' "CURRENT" = some (bytesOf (manifestName 1 ++ "\n"))) (children' : List String) :
    currentManifest files' = .ok (logFile crc [(r.descriptor cfg.comparatorName).encodeTo]) ∧
    (∀ s, (VersionSet.init : VersionSet K).recoverFile crc keys cfg
        (logFile crc [(r.descriptor cfg.comparatorName).encodeTo]) = some (.error s) →
      openDb crc keys cfg files' children' = some (.error s)) ∧
    ∀ vs, (VersionSet.init : VersionSet K).recoverFile crc keys cfg
        (logFile crc [(r.descriptor cfg.comparatorName).encodeTo]) = some (.ok vs) →
      ∃ vs', openDb crc keys cfg files' children' = some (.ok vs') ∧
        vs'.manifestFileNumber = vs.manifestFileNumber ∧ vs.nextFileNumber < vs'.nextFileNumber := by
  have hfile : currentManifest files' =
      .ok (logFile crc [(r.descriptor cfg.comparatorName).encodeTo]) := by
    unfold currentManifest
    rw [currentName_repaired hcurrent]
    dsimp only
    rw [hmanifest]
  have hsome : ¬( files' "CURRENT").isNone = true := by
    rw [hcurrent]
    exact Bool.false_ne_true
  refine ⟨hfile, ?_, ?_⟩
  · intro s hs
    unfold openDb
    rw [if_neg hsome, hfile]
    dsimp only
    rw [hs]
  · intro vs hvs
    unfold openDb
    rw [if_neg hsome, hfile]
    dsimp only
    rw [hvs]
    dsimp only
    generalize hlogs : List.insertionSort (· ≤ ·) (List.map ParsedFile.number _) = logs
    have hnone : ∀ n ∈ logs, files' (logName n) = none := by
      intro n hn
      rw [← hlogs, mem_insertionSort] at hn
      obtain ⟨p, hp, rfl⟩ := List.mem_map.mp hn
      obtain ⟨name, -, hparsed⟩ := mem_filterMap.mp (mem_filter.mp hp).1
      exact h.noLogs _ (parseFileName_lt hparsed)
    rw [if_neg (by
      rw [List.any_eq_true]
      intro ⟨n, hn, hsome⟩
      rw [hnone n hn] at hsome
      cases hsome)]
    obtain ⟨hm, hnext⟩ := foldl_markFileNumberUsed logs vs
    exact ⟨_, rfl, hm, Nat.lt_succ_of_le hnext⟩

theorem recover_repaired (hlen : cfg.comparatorName.length < 2 ^ 32) (vs : VersionSet K) :
    (∀ s, decodeFrom (r.descriptor cfg.comparatorName).encodeTo = .error s →
      vs.recoverFile crc keys cfg (logFile crc [(r.descriptor cfg.comparatorName).encodeTo]) =
        some (.error s)) ∧
    ∀ vs', vs.recoverFile crc keys cfg (logFile crc [(r.descriptor cfg.comparatorName).encodeTo]) =
        some (.ok vs') →
      vs'.manifestFileNumber = r.nextFileNumber ∧ vs'.nextFileNumber = r.nextFileNumber + 1 := by
  unfold VersionSet.recoverFile
  rw [readLog_logFile, map_some]
  dsimp only
  rw [map_snd_placed]
  constructor
  · intro s hs
    rw [replayRecords, hs]
  · intro vs' hok
    cases hreplay : replayRecords keys cfg [(r.descriptor cfg.comparatorName).encodeTo]
        ⟨.empty, vs.compactPointer, none, none, none, none⟩ with
    | error s =>
      rw [hreplay] at hok
      cases Option.some.inj hok
    | ok st =>
      rw [hreplay] at hok
      obtain ⟨edit, hdecode, -, hrest⟩ := replayRecords_cons_ok hreplay
      obtain rfl := h.decodeFrom_eq hlen hdecode
      obtain rfl := Except.ok.inj hrest
      obtain rfl := Except.ok.inj (Option.some.inj hok)
      exact ⟨rfl, rfl⟩

theorem recover_repaired_ok (hname : ∀ c ∈ cfg.comparatorName.toList, c.toNat < 256)
    (hlen : cfg.comparatorName.length < 2 ^ 32) {edit : EditRecord}
    (hdecode : decodeFrom (r.descriptor cfg.comparatorName).encodeTo = .ok edit)
    (vs : VersionSet K) :
    ∃ vs', vs.recoverFile crc keys cfg (logFile crc [(r.descriptor cfg.comparatorName).encodeTo]) =
      some (.ok vs') := by
  obtain rfl := h.decodeFrom_eq hlen hdecode
  have hsets : ∀ {number : EditRecord → Option Nat},
      (number (r.descriptor cfg.comparatorName)).isSome →
        SetsNumber number [(r.descriptor cfg.comparatorName).encodeTo] := fun hsome =>
    ⟨_, mem_cons_self, _, hdecode, hsome⟩
  rw [recoverFile_ok_iff crc (readLog_logFile crc true _), map_snd_placed]
  refine ⟨?_, hsets rfl, hsets rfl, hsets rfl⟩
  intro record hrecord
  obtain rfl := mem_singleton.mp hrecord
  refine ⟨_, hdecode, ?_⟩
  show Option.filter _ (some (textOf (bytesOf cfg.comparatorName))) = none
  rw [textOf_bytesOf hname, filter_some_neg (by simp)]

theorem opened_numbers (hlen : cfg.comparatorName.length < 2 ^ 32)
    (hmanifest : files' (manifestName 1) =
      some (logFile crc [(r.descriptor cfg.comparatorName).encodeTo]))
    (hcurrent : files' "CURRENT" = some (bytesOf (manifestName 1 ++ "\n"))) {vs : VersionSet K}
    (hopen : openDb crc keys cfg files' children' = some (.ok vs)) :
    vs.manifestFileNumber = r.nextFileNumber ∧ r.nextFileNumber + 1 < vs.nextFileNumber := by
  obtain ⟨-, herror, hok⟩ := openDb_repaired h hmanifest hcurrent children'
  obtain ⟨result, hresult⟩ : ∃ result, (VersionSet.init : VersionSet K).recoverFile crc keys cfg
      (logFile crc [(r.descriptor cfg.comparatorName).encodeTo]) = some result := by
    unfold VersionSet.recoverFile
    rw [readLog_logFile]
    exact ⟨_, rfl⟩
  cases result with
  | error s =>
    rw [herror s hresult] at hopen
    cases Option.some.inj hopen
  | ok vs₀ =>
    obtain ⟨vs', hvs', hmanifest', hlt⟩ := hok vs₀ hresult
    obtain rfl := Except.ok.inj (Option.some.inj (hopen.symm.trans hvs'))
    obtain ⟨hnumber, hnext⟩ := (recover_repaired h hlen _).2 vs₀ hresult
    exact ⟨hmanifest'.trans hnumber, hnext ▸ hlt⟩

end

def ManifestDecodes (crc : Checksum) (files : Files) : Prop :=
  ∃ file records reports, currentManifest files = .ok file ∧
    readLog crc true file = some (records, reports) ∧
    ∀ p ∈ records, ∃ edit, decodeFrom p.2 = .ok edit

/-- After a repair the manifest decodes and the database opens, exactly when every table that is
    kept has a key which can be parsed. -/
theorem repaired_opens_iff {dbname : String} (hname : ∀ c ∈ cfg.comparatorName.toList, c.toNat < 256)
    (hlen : cfg.comparatorName.length < 2 ^ 32) (hlist : Lists files children)
    (hrepair : repairDb fmt crc keys cfg.comparatorName dbname files children = some (.ok files')) :
    (ManifestDecodes crc files' ∧ ∃ vs, openDb crc keys cfg files' children' = some (.ok vs)) ↔
      ∀ n < 2 ^ 64, ∀ b s, files (tableName n) = some b → fmt.readTable b = .ok s →
        s.status = none ∨ s.entries ≠ [] → ∃ e ∈ s.entries, (parsedSequence e.1).isSome := by
  obtain ⟨result, hrun, hresult⟩ := map_eq_some_iff.mp hrepair
  cases result with
  | error s => cases hresult
  | ok r =>
    obtain rfl := Except.ok.inj hresult
    obtain ⟨h, hmanifest, hcurrent⟩ := run_spec cfg.comparatorName hlist hrun
    obtain ⟨hfile, herror, hok⟩ := openDb_repaired h hmanifest hcurrent children'
    rw [← h.bounds_iff, ← h.decodes_iff hlen]
    constructor
    · intro ⟨_, vs, hvs⟩
      cases hdecode : decodeFrom (r.descriptor cfg.comparatorName).encodeTo with
      | error s =>
        rw [herror s ((recover_repaired h hlen _).1 s hdecode)] at hvs
        cases Option.some.inj hvs
      | ok edit => exact ⟨edit, rfl⟩
    · intro ⟨edit, hdecode⟩
      refine ⟨⟨_, _, _, hfile, readLog_logFile crc true _, ?_⟩, ?_⟩
      · grind [List.mem_map_of_mem, map_snd_placed, mem_singleton]
      · obtain ⟨vs, hvs⟩ := recover_repaired_ok h hname hlen hdecode VersionSet.init
        obtain ⟨vs', hopen, -⟩ := hok vs hvs
        exact ⟨vs', hopen⟩

def Reachable (fmt : TableFormat) (edit : EditRecord) (files : Files) (e : Bytes × Bytes) : Prop :=
  ∃ p ∈ edit.newFiles, ∃ b s, files (tableName p.2.number) = some b ∧ fmt.readTable b = .ok s ∧
    e ∈ s.entries

omit [Inhabited K] in
theorem Repaired.reachable_iff (h : Repaired fmt crc keys files children r files')
    (comparatorName : String) (e : Bytes × Bytes) :
    Reachable fmt (r.descriptor comparatorName) files' e ↔
      (∃ n < 2 ^ 64, ∃ b s, files (tableName n) = some b ∧ fmt.readTable b = .ok s ∧
        e ∈ s.entries) ∨
      ∃ m < 2 ^ 64, ∃ file, files (logName m) = some file ∧ e ∈ logEntries crc keys file := by
  have hdescriptor : ∀ {n size : Nat} {es : List (Bytes × Bytes)}, tableInfo n size es ∈ r.tables →
      ∃ p ∈ (r.descriptor comparatorName).newFiles, p.2.number = n := by
    intro n size es ht
    obtain ⟨empty, hseen⟩ := tableInfo_spec n size es
    exact ⟨_, List.mem_map.mpr ⟨_, ht, rfl⟩, hseen.number⟩
  constructor
  · intro ⟨p, hp, b, s, hb, hread, he⟩
    obtain ⟨t, ht, rfl⟩ := List.mem_map.mp hp
    obtain ⟨n, s₀, b', rfl, -, -, ⟨hb', s', hread', hentries⟩, hsource⟩ := h.mem_tables ht
    obtain ⟨empty, hseen⟩ := tableInfo_spec n b'.length s₀.entries
    dsimp only at hb
    rw [hseen.number] at hb
    obtain rfl := Option.some.inj (hb.symm.trans hb')
    obtain rfl := Except.ok.inj (hread.symm.trans hread')
    rw [hentries] at he
    obtain ⟨hn, b₀, hb₀, hread₀, -⟩ | ⟨m, hm, file, hfile, hlog, -⟩ := hsource
    · exact Or.inl ⟨n, hn, b₀, s₀, hb₀, hread₀, he⟩
    · exact Or.inr ⟨m, hm, file, hfile, hlog ▸ he⟩
  · intro hsource
    obtain ⟨n, hn, b, s, hb, hread, he⟩ | ⟨m, hm, file, hfile, he⟩ := hsource
    · obtain ⟨hleft, hinfo, hsome⟩ := h.table n hn b hb
      obtain ⟨b', hb'⟩ := isSome_iff_exists.mp
        (hsome s hread (Or.inr (ne_nil_of_mem he)))
      have hinfo' : salvagedInfo fmt n b = some (tableInfo n b'.length s.entries) := by
        rw [(salvaged_of_ok hread).2, hb']
        rfl
      obtain ⟨s₀, b₀, hread₀, -, hb₀, -, s', hread', hentries⟩ := salvagedInfo_eq_some hinfo'
      obtain rfl := Except.ok.inj (hread.symm.trans hread₀)
      obtain rfl := Option.some.inj (hb'.symm.trans hb₀)
      obtain ⟨p, hp, hnumber⟩ := hdescriptor (hinfo _ hinfo')
      exact ⟨p, hp, b', s', by rw [hnumber, hleft, hb'], hread', hentries ▸ he⟩
    · obtain ⟨n, b, ⟨file', hfile', -, hbuild⟩, hb, ht⟩ :=
        h.built m hm file hfile (ne_nil_of_mem he)
      obtain rfl := Option.some.inj (hfile.symm.trans hfile')
      obtain ⟨p, hp, hnumber⟩ := hdescriptor ht
      exact ⟨p, hp, b, _, by rw [hnumber, hb], fmt.readTable_build _ b hbuild, he⟩

omit [Inhabited K] in
/-- After a repair every entry of a table file is found, exactly when the entries of those files
    that do not have the name which the table cache opens are also somewhere else. -/
theorem repair_keeps_entries_iff {dbname : String} (comparatorName : String)
    (hlist : Lists files children)
    (hrun : Repairer.run fmt crc keys dbname files children = some (.ok r)) :
    (∀ name ∈ children, ∀ n, parseFileName name = some ⟨n, .tableFile⟩ → ∀ b s,
      files name = some b → fmt.readTable b = .ok s → ∀ e ∈ s.entries,
        Reachable fmt (r.descriptor comparatorName) (r.writeDescriptor crc comparatorName) e) ↔
    ∀ name ∈ children, ∀ n, parseFileName name = some ⟨n, .tableFile⟩ → name ≠ tableName n →
      ∀ b s, files name = some b → fmt.readTable b = .ok s → ∀ e ∈ s.entries,
        (∃ m < 2 ^ 64, ∃ b' s', files (tableName m) = some b' ∧ fmt.readTable b' = .ok s' ∧
          e ∈ s'.entries) ∨
        ∃ m < 2 ^ 64, ∃ file, files (logName m) = some file ∧ e ∈ logEntries crc keys file := by
  obtain ⟨h, -, -⟩ := run_spec comparatorName hlist hrun
  constructor
  · intro hall name hname n hparsed _ b s hb hread e he
    exact (h.reachable_iff comparatorName e).mp (hall name hname n hparsed b s hb hread e he)
  · intro hother name hname n hparsed b s hb hread e he
    rw [h.reachable_iff]
    by_cases hcanonical : name = tableName n
    · subst hcanonical
      exact Or.inl ⟨n, parseFileName_lt hparsed, b, s, hb, hread, he⟩
    · exact hother name hname n hparsed hcanonical b s hb hread e he

end Opened

end Salvage

end LevelDB
