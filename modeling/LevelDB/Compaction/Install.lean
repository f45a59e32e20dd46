/-
  Installing the output of a compaction (`DBImpl::BackgroundCompaction`,
  `DBImpl::DoCompactionWork`, `db/db_impl.cc`).

  Files that stay hold nothing older than an input for the same user key, down to the output level
  (`Closed.tag_lt_of_stays`); deeper files are what `IsBaseLevelForKey` looks at. Hence the version
  afterwards is a collected version of the one before (`Multiversion.Collected`).
-/
import LevelDB.Compaction.Work

namespace LevelDB

open List Function Multiversion

variable {K V : Type} [LinearOrder K]

/-! ## The files after the edit -/

variable {output : Option (FileMetaData K)} {level : Nat} {f : FileMetaData K}

section Edit

omit [LinearOrder K]

theorem VersionEdit.mem_deletedAt {edit : VersionEdit K} {level n : Nat} :
    n ∈ edit.deletedAt level ↔ (level, n) ∈ edit.deletedFiles := by
  unfold deletedAt
  simp

theorem VersionEdit.mem_newFilesAt {edit : VersionEdit K} :
    f ∈ edit.newFilesAt level ↔ (level, f) ∈ edit.newFiles := by
  unfold newFilesAt
  simp

theorem foldl_removeFile (level : Nat) (files : List (FileMetaData K)) :
    ∀ edit : VersionEdit K,
      (files.foldl (fun e f => e.removeFile level f.number) edit).newFiles = edit.newFiles ∧
      ∀ q, q ∈ (files.foldl (fun e f => e.removeFile level f.number) edit).deletedFiles ↔
        q ∈ edit.deletedFiles ∨ ∃ f ∈ files, q = (level, f.number) := by
  induction files with
  | nil => intro edit; simp
  | cons f files ih =>
    intro edit
    obtain ⟨hnew, hdel⟩ := ih (edit.removeFile level f.number)
    refine ⟨hnew, ?_⟩
    intro q
    rw [foldl_cons, hdel]
    unfold VersionEdit.removeFile
    rw [mem_insertDeleted, exists_mem_cons_iff]
    tauto

theorem foldl_removeFile_eq (level : Nat) (files : List (FileMetaData K)) :
    ∀ edit : VersionEdit K, files.foldl (fun e f => e.removeFile level f.number) edit =
      { edit with
        deletedFiles := (files.foldl (fun e f => e.removeFile level f.number) edit).deletedFiles } := by
  induction files with
  | nil => intro edit; rfl
  | cons f files ih =>
    intro edit
    rw [foldl_cons, ih (edit.removeFile level f.number)]
    rfl

theorem compactionEdit_eq (c : Compaction K) (output : Option (FileMetaData K)) :
    compactionEdit c output =
      { compactPointers := [(c.level, c.compactPointer)]
        newFiles := (compactionEdit c output).newFiles
        deletedFiles := (compactionEdit c output).deletedFiles } := by
  unfold compactionEdit
  dsimp only
  rw [foldl_removeFile_eq, foldl_removeFile_eq]
  cases output <;> rfl

theorem compactionEdit_newFiles (c : Compaction K) (output : Option (FileMetaData K)) :
    (compactionEdit c output).newFiles = output.toList.map fun f => (c.level + 1, f) := by
  unfold compactionEdit
  dsimp only
  rw [(foldl_removeFile _ _ _).1, (foldl_removeFile _ _ _).1]
  cases output <;> rfl

theorem mem_compactionEdit_newFilesAt {c : Compaction K} :
    f ∈ (compactionEdit c output).newFilesAt level ↔ level = c.level + 1 ∧ f ∈ output := by
  rw [VersionEdit.mem_newFilesAt, compactionEdit_newFiles, List.mem_map]
  constructor
  · simp_all
  · intro ⟨hl, hf⟩
    exact ⟨f, Option.mem_toList.mpr hf, by rw [hl]⟩

theorem compactionEdit_freshAt (c : Compaction K) {v : Version K}
    (hfresh : ∀ f ∈ output, ∀ level, ∀ g ∈ v.files level, g.number ≠ f.number) (level : Nat) :
    FreshAt (v.files level) ((compactionEdit c output).newFilesAt level) := by
  refine ⟨?_, fun x hx y hy => hfresh x (mem_compactionEdit_newFilesAt.mp hx).2 level y hy⟩
  unfold VersionEdit.newFilesAt
  rw [compactionEdit_newFiles]
  cases output with
  | none => simp
  | some f =>
    grind

theorem mem_compactionEdit_deletedFiles (c : Compaction K) (output : Option (FileMetaData K))
    (q : Nat × Nat) :
    q ∈ (compactionEdit c output).deletedFiles ↔
      (∃ f ∈ c.inputs0, q = (c.level, f.number)) ∨
      (∃ f ∈ c.inputs1, q = (c.level + 1, f.number)) := by
  unfold compactionEdit
  dsimp only
  rw [(foldl_removeFile _ _ _).2, (foldl_removeFile _ _ _).2]
  cases output with
  | none => simp
  | some f => simp [VersionEdit.addFile]

/-- `f` is an input of the compaction, at its level. -/
def Compaction.Removes (c : Compaction K) (level : Nat) (f : FileMetaData K) : Prop :=
  level = c.level ∧ f ∈ c.inputs0 ∨ level = c.level + 1 ∧ f ∈ c.inputs1

end Edit

section Install

variable {v : Version K} {store : TableStore K V} {c : Compaction K}

theorem mem_of_number_eq (hint : v.Intact store) {inputs : List (FileMetaData K)}
    (hsub : ∀ f ∈ inputs, f ∈ v.files level) (hup : UpClosed (v.files level) inputs)
    {f g : FileMetaData K} (hf : f ∈ inputs) (hg : g ∈ v.files level) (hnum : g.number = f.number) :
    g ∈ inputs := by
  by_contra hgn
  have hdf := hint level f (hsub f hf)
  have hdg := hint level g hg
  rw [hnum] at hdg
  obtain ⟨e, he, hek⟩ := hdf.smallest_mem
  obtain h | h := hup f hf g hg hgn
  · rw [← hek] at h
    exact absurd (hdg.bounds e he).2 (not_le.mpr h)
  · exact absurd ((hdg.userKey_bounds he).1.trans (hdf.userKey_bounds he).2) (not_le.mpr h)

theorem mem_compactionEdit_files_of
    (hin0 : ∀ f ∈ c.inputs0, ∀ g ∈ v.files c.level, g.number = f.number → g ∈ c.inputs0)
    (hin1 : ∀ f ∈ c.inputs1, ∀ g ∈ v.files (c.level + 1), g.number = f.number → g ∈ c.inputs1)
    (hfresh : ∀ f ∈ output, ∀ level, ∀ g ∈ v.files level, g.number ≠ f.number)
    (hlevel : level < kNumLevels) :
    f ∈ (v.applyEdit (compactionEdit c output)).files level ↔
      (level = c.level + 1 ∧ f ∈ output) ∨ (f ∈ v.files level ∧ ¬ c.Removes level f) := by
  have hat := compactionEdit_freshAt c hfresh level
  rw [Version.mem_applyEdit hat hlevel, mem_compactionEdit_newFilesAt, VersionEdit.mem_deletedAt,
    mem_compactionEdit_deletedFiles]
  refine or_congr_right (and_congr_right fun hf => not_congr ?_)
  unfold Compaction.Removes
  refine or_congr ⟨?_, ?_⟩ ⟨?_, ?_⟩
  · intro ⟨g, hg, heq⟩
    obtain ⟨rfl, hn⟩ := Prod.mk.inj heq
    exact ⟨rfl, hin0 g hg f hf hn⟩
  · intro ⟨hl, hf0⟩
    exact ⟨f, hf0, by rw [hl]⟩
  · intro ⟨g, hg, heq⟩
    obtain ⟨rfl, hn⟩ := Prod.mk.inj heq
    exact ⟨rfl, hin1 g hg f hf hn⟩
  · intro ⟨hl, hf1⟩
    exact ⟨f, hf1, by rw [hl]⟩

theorem mem_compactionEdit_files (hint : v.Intact store) (hc : Closed v c)
    (hfresh : ∀ f ∈ output, ∀ level, ∀ g ∈ v.files level, g.number ≠ f.number)
    (hlevel : level < kNumLevels) :
    f ∈ (v.applyEdit (compactionEdit c output)).files level ↔
      (level = c.level + 1 ∧ f ∈ output) ∨ (f ∈ v.files level ∧ ¬ c.Removes level f) :=
  mem_compactionEdit_files_of (fun _ hg _ hf => mem_of_number_eq hint hc.sub0 hc.up0 hg hf)
    (fun _ hg _ hf => mem_of_number_eq hint hc.sub1 hc.up1 hg hf) hfresh hlevel

theorem Closed.tag_lt_of_stays (hc : Closed v c) (hint : v.Intact store) (hord : v.LevelOrder store)
    (hlevel : level ≤ c.level + 1) {f g : FileMetaData K} (hf : f ∈ c.inputs0 ++ c.inputs1)
    (hg : g ∈ v.files level) (hstays : ¬ c.Removes level g) {e x : Entry K V}
    (he : e ∈ (store f.number).entries) (hx : x ∈ (store g.number).entries)
    (hu : x.userKey = e.userKey) : e.tag < x.tag := by
  have hdg := hint level g hg
  -- what `UpClosed` says about the two files
  have hupc : ∀ {files inputs : List (FileMetaData K)}, UpClosed files inputs → f ∈ inputs →
      g ∈ files → g ∉ inputs → Version.Describes f (store f.number) → e.tag < x.tag := by
    intro files inputs hup hfi hgf hgi hdf
    obtain h | h := hup f hfi g hgf hgi
    · have hlt : x.key < e.key :=
        (hdg.bounds x hx).2.trans_lt (h.trans_le (hdf.bounds e he).1)
      obtain h | h := (InternalKey.lt_iff _ _).mp hlt
      · exact absurd hu h.ne
      · exact h.2
    · have h1 := (hdf.userKey_bounds he).2
      have h2 := (hdg.userKey_bounds hx).1
      exact absurd hu (h1.trans_lt (h.trans_le h2)).ne'
  have hnewer : ∀ j, level < j → f ∈ v.files j → e.tag < x.tag := by
    intro j hj hfj
    exact Entry.tag_lt_of_sequence_lt (hord.levels level j hj g hg f hfj x hx e he hu)
  obtain hf | hf := mem_append.mp hf
  · have hdf := hint _ f (hc.sub0 f hf)
    obtain hlt | rfl | hgt := lt_trichotomy level c.level
    · exact hnewer _ hlt (hc.sub0 f hf)
    · exact hupc hc.up0 hf hg (fun h => hstays (Or.inl ⟨rfl, h⟩)) hdf
    · obtain rfl : level = c.level + 1 := by omega
      obtain h | h := hc.overlap f hf g hg fun h => hstays (Or.inr ⟨rfl, h⟩)
      · exact absurd hu ((hdg.userKey_bounds hx).2.trans_lt
          (h.trans_le (hdf.userKey_bounds he).1)).ne
      · exact absurd hu ((hdf.userKey_bounds he).2.trans_lt
          (h.trans_le (hdg.userKey_bounds hx).1)).ne'
  · have hdf := hint _ f (hc.sub1 f hf)
    obtain hlt | rfl := lt_or_eq_of_le hlevel
    · exact hnewer _ hlt (hc.sub1 f hf)
    · exact hupc hc.up1 hf hg (fun h => hstays (Or.inr ⟨rfl, h⟩)) hdf

/-! ## Before and after -/

variable [Inhabited K] {snap number : Nat} {env : CompactionEnv}
  {r : Option (FileMetaData K × List (Entry K V))}

theorem doCompactionWork_ok (h : doCompactionWork v store c snap number env = .ok r) :
    ((makeInputIterator store env.faults c).entries = [] ∧ r = none) ∨
    ((makeInputIterator store env.faults c).entries ≠ [] ∧
      env.newFileError = none ∧ env.outputError = none ∧
      ∃ f : FileMetaData K, ∃ kept : List (Entry K V), r = some (f, kept) ∧
        kept = keptEntries v c.level snap .init
          (env.consumed (makeInputIterator store env.faults c).entries) ∧
        f.number = number ∧
        f.smallest = (kept.head?.map Entry.key).getD .cleared ∧
        f.largest = (kept.getLast?.map Entry.key).getD .cleared) := by
  unfold doCompactionWork at h
  dsimp only at h
  cases hempty : (makeInputIterator store env.faults c).entries.isEmpty with
  | true =>
    rw [hempty, if_pos rfl] at h
    injection h with h
    exact Or.inl ⟨List.isEmpty_iff.mp hempty, h.symm⟩
  | false =>
    have hne : (makeInputIterator store env.faults c).entries ≠ [] := by
      intro heq
      rw [heq] at hempty
      cases hempty
    rw [hempty, if_neg Bool.false_ne_true] at h
    cases hnew : env.newFileError with
    | some s => rw [hnew] at h; cases h
    | none =>
      cases hout : env.outputError with
      | some s => rw [hnew, hout] at h; cases h
      | none =>
        rw [hnew, hout] at h
        dsimp only at h
        rw [if_pos env.fileSize_pos] at h
        injection h with h
        obtain ⟨ho, hs, hl⟩ := foldl_compactEntry v c.level snap
          (env.consumed (makeInputIterator store env.faults c).entries) WorkState.init
        refine Or.inr ⟨hne, rfl, rfl, _, _, h.symm, ?_, rfl, ?_, ?_⟩
        · rw [ho]; rfl
        · rw [hs, ho]; rfl
        · rw [hl, ho]; rfl

theorem doCompactionWork_number (h : doCompactionWork v store c snap number env = .ok r) :
    ∀ p ∈ r, p.1.number = number := by
  intro p hp
  obtain ⟨-, hr⟩ | ⟨-, -, -, f, kept, hr, -, hn, -⟩ := doCompactionWork_ok h
  · rw [hr] at hp; cases hp
  · rw [hr] at hp
    obtain rfl := Option.some.inj hp
    exact hn

theorem doCompactionWork_sub (hint : v.Intact store) (hc : Closed v c)
    (h : doCompactionWork v store c snap number env = .ok r) :
    ∀ p ∈ r, ∀ e ∈ p.2, ∃ f ∈ c.inputs0 ++ c.inputs1, e ∈ (store f.number).entries := by
  intro p hp e he
  obtain ⟨-, hr⟩ | ⟨-, -, -, f, kept, hr, hk, -⟩ := doCompactionWork_ok h
  · rw [hr] at hp; cases hp
  · rw [hr] at hp
    obtain rfl := Option.some.inj hp
    dsimp only at he
    rw [hk] at he
    have hmem : e ∈ (makeInputIterator store env.faults c).entries :=
      ((keptEntries_sublist c.level snap _ _).trans (env.consumed_sublist _)).subset he
    obtain ⟨f, hf, hef⟩ := (mem_makeInputIterator hint hc).mp hmem
    exact ⟨f, hf, ((store f.number).scan_sublist _).subset hef⟩

theorem mem_entries_installed (hint : v.Intact store) (hc : Closed v c)
    (hlevel : c.level + 1 < kNumLevels)
    (hnum : ∀ level, ∀ f ∈ v.files level, f.number ≠ number)
    (h : doCompactionWork v store c snap number env = .ok r)
    {t : Table K V} (ht : ∀ p ∈ r, t.entries = p.2) {e : Entry K V} :
    e ∈ (v.applyEdit (compactionEdit c (r.map Prod.fst))).entries
        (Function.update store number t) ↔
      (∃ p ∈ r, e ∈ p.2) ∨
      ∃ level, ∃ f ∈ v.files level, ¬ c.Removes level f ∧ e ∈ (store f.number).entries := by
  have hnumber := doCompactionWork_number h
  have hfresh : ∀ f ∈ r.map Prod.fst, ∀ level, ∀ g ∈ v.files level, g.number ≠ f.number := by
    intro f hf level g hg
    obtain ⟨p, hp, rfl⟩ := Option.mem_map.mp hf
    rw [hnumber p hp]
    exact hnum level g hg
  have hold : ∀ level, ∀ f ∈ v.files level,
      Function.update store number t f.number = store f.number :=
    fun level f hf => update_of_ne (hnum level f hf) _ _
  constructor
  · intro ⟨level, f, hf, he⟩
    obtain ⟨-, hf⟩ | ⟨hf, hr⟩ :=
      (mem_compactionEdit_files hint hc hfresh (Version.level_lt hf)).mp hf
    · grind [Option.mem_map, update_self]
    · rw [hold level f hf] at he
      exact Or.inr ⟨level, f, hf, hr, he⟩
  · intro he
    obtain ⟨p, hp, he⟩ | ⟨level, f, hf, hr, he⟩ := he
    · refine ⟨c.level + 1, p.1, ?_, ?_⟩
      · grind [mem_compactionEdit_files, Option.mem_map]
      · rw [hnumber p hp, update_self, ht p hp]
        exact he
    · refine ⟨level, f, ?_, ?_⟩
      · exact (mem_compactionEdit_files hint hc hfresh (Version.level_lt hf)).mpr
          (Or.inr ⟨hf, hr⟩)
      · rw [hold level f hf]
        exact he

omit [Inhabited K] in
theorem input_kept_or_dropped (hint : v.Intact store) (hsort : v.LevelsSorted)
    (hord : v.LevelOrder store) (hc : Closed v c) (hsnap : snap < kMaxSequenceNumber)
    {e : Entry K V} (he : e ∈ (makeInputIterator store env.faults c).entries) :
    e ∈ keptEntries v c.level snap .init (makeInputIterator store env.faults c).entries ∨
    (∃ p ∈ v.entries store, p.userKey = e.userKey ∧ e.tag < p.tag ∧ p.sequence ≤ snap) ∨
    (ObsoleteDeletion v c.level snap e ∧
      ∀ x ∈ keptEntries v c.level snap .init (makeInputIterator store env.faults c).entries,
        x.userKey = e.userKey → e.tag < x.tag) := by
  have hin : ∀ x ∈ (makeInputIterator store env.faults c).entries, x ∈ v.entries store := by
    intro x hx
    obtain ⟨f, hf, hxf⟩ := (mem_makeInputIterator hint hc).mp hx
    have hxt := ((store f.number).scan_sublist _).subset hxf
    obtain hf | hf := mem_append.mp hf
    · exact ⟨c.level, f, hc.sub0 f hf, hxt⟩
    · exact ⟨c.level + 1, f, hc.sub1 f hf, hxt⟩
  have hwf : ∀ x ∈ (makeInputIterator store env.faults c).entries, x.key.WellFormed :=
    fun x hx => Version.entries_wellFormed v store x (hin x hx)
  have hsorted := makeInputIterator_sorted hint hc env.faults
  generalize (makeInputIterator store env.faults c).entries = l at he hin hwf hsorted ⊢
  obtain ⟨pre, post, hl, hpre⟩ := eq_append_cons_of_mem he
  -- what comes before the first occurrence of `e` and has its user key is newer
  have hnewer : ∀ p ∈ pre, p.userKey = e.userKey → e.tag < p.tag := by
    intro p hp hu
    have hpl : p ∈ l := by rw [hl]; exact mem_append_left _ hp
    have hle : p.key ≤ e.key := by
      rw [hl] at hsorted
      exact (pairwise_append.mp hsorted).2.2 p hp e (by simp)
    refine lt_of_le_of_ne (Entry.tag_le_of_key_le hu.symm hle) ?_
    intro htag
    apply hpre
    rw [Version.entries_inj hint hsort hord e (hin e he) p (hin p hpl) hu.symm htag]
    exact hp
  have hr : v.Ranged := fun level f hf => (hint level f hf).smallest_le_largest
  obtain h | ⟨p, hp, hu, hs⟩ | ⟨hobs, hold⟩ := mem_kept_or_dropped hsort hr hsnap
    (dropInv_init v) hwf hsorted hl
  · exact Or.inl h
  · grind
  · exact Or.inr (Or.inr ⟨hobs, fun x hx hu => hnewer x (hold x hx hu) hu⟩)

theorem compaction_collects (hint : v.Intact store) (hsort : v.LevelsSorted)
    (hord : v.LevelOrder store) (hc : Closed v c) (hlevel : c.level + 1 < kNumLevels)
    (hnum : ∀ level, ∀ f ∈ v.files level, f.number ≠ number)
    (hend : env.Exhausts (makeInputIterator store env.faults c))
    (hwork : doCompactionWork v store c snap number env = .ok r)
    {t : Table K V} (ht : ∀ p ∈ r, t.entries = p.2) (hsnap : snap < kMaxSequenceNumber) :
    Collected Entry.userKey Entry.tag Entry.IsDeletion
      (packSequenceAndType snap kValueTypeForSeek) (v.entries store)
      ((v.applyEdit (compactionEdit c (r.map Prod.fst))).entries
        (Function.update store number t)) := by
  have hmem := fun e => mem_entries_installed hint hc hlevel hnum hwork ht (e := e)
  have hin := doCompactionWork_sub hint hc hwork
  refine ⟨?_, ?_⟩
  · intro e he
    obtain ⟨p, hp, hep⟩ | ⟨level, f, hf, -, hef⟩ := (hmem e).mp he
    · obtain ⟨f, hf, hef⟩ := hin p hp e hep
      obtain hf | hf := mem_append.mp hf
      · exact ⟨c.level, f, hc.sub0 f hf, hef⟩
      · exact ⟨c.level + 1, f, hc.sub1 f hf, hef⟩
    · exact ⟨level, f, hf, hef⟩
  · intro e he hgone
    rw [hmem] at hgone
    obtain ⟨level, f, hf, hef⟩ := he
    -- `e` is in an input, since all other files stay
    have hrem : c.Removes level f := by
      by_contra hstays
      exact hgone (Or.inr ⟨level, f, hf, hstays, hef⟩)
    have hfin : f ∈ c.inputs0 ++ c.inputs1 := by
      obtain ⟨-, h⟩ | ⟨-, h⟩ := hrem
      · exact mem_append_left _ h
      · exact mem_append_right _ h
    have hread := (mem_makeInputIterator_of_status hint hc hend.2).mpr ⟨f, hfin, hef⟩
    have hkept : ∀ x, (∃ p ∈ r, x ∈ p.2) ↔
        x ∈ keptEntries v c.level snap .init (makeInputIterator store env.faults c).entries := by
      intro x
      obtain ⟨hnil, -⟩ | ⟨-, -, -, g, kept, hr, hk, -⟩ := doCompactionWork_ok hwork
      · rw [hnil] at hread; simp at hread
      · rw [hr, ← hend.1, ← hk]
        simp
    obtain h | ⟨p, hp, hu, hlt, hps⟩ | ⟨hobs, hold⟩ :=
      input_kept_or_dropped hint hsort hord hc hsnap hread
    · exact absurd (Or.inl ((hkept e).mpr h)) hgone
    · have hwf := Version.entries_wellFormed v store p hp
      exact Or.inl ⟨p, hp, hu, hlt, (tag_le_lookup_iff hwf snap).mpr hps⟩
    · refine Or.inr ⟨hobs.1, ?_⟩
      intro x hx hu
      obtain hx | ⟨lx, g, hg, hstays, hxg⟩ := (hmem x).mp hx
      · exact hold x ((hkept x).mp hx) hu
      · by_cases hl : lx ≤ c.level + 1
        · exact hc.tag_lt_of_stays hint hord hl hfin hg hstays hef hxg hu
        · -- a deeper file would cover the user key
          have hcov := (hint lx g hg).userKey_bounds hxg
          rw [hu] at hcov
          exact absurd hcov (hobs.2.2 lx (by omega) g hg)

/-- **Compaction preserves reads.** At every sequence number from the smallest snapshot on, a
    read of the version after the compaction answers what a read of the version before does. -/
theorem compaction_preserves_reads (hint : v.Intact store) (hsort : v.LevelsSorted)
    (hord : v.LevelOrder store) (hc : Picked v c)
    (hnum : ∀ level, ∀ f ∈ v.files level, f.number ≠ number)
    (hend : env.Exhausts (makeInputIterator store env.faults c))
    (snapshots : List Nat) (lastSequence : Nat)
    (hsnap : smallestSnapshot snapshots lastSequence < kMaxSequenceNumber)
    (hwork : doCompactionWork v store c (smallestSnapshot snapshots lastSequence) number env =
      .ok r)
    {t : Table K V} (ht : ∀ p ∈ r, t.entries = p.2)
    (k : K) {s : Nat} (hs : smallestSnapshot snapshots lastSequence ≤ s) (val : V) :
    Entry.Visible (v.entries store) k s val ↔
      Entry.Visible ((v.applyEdit (compactionEdit c (r.map Prod.fst))).entries
        (Function.update store number t)) k s val := by
  have hr : v.Ranged := fun level f hf => (hint level f hf).smallest_le_largest
  exact Entry.visible_iff_of_collected (Version.entries_wellFormed v store)
    (compaction_collects hint hsort hord (hc.closed hsort hr) hc.level_lt hnum hend hwork ht hsnap)
    k hs val

/-! ## What is committed -/

omit [LinearOrder K] [Inhabited K] in
theorem CompactionEnv.consumed_eq_iff (env : CompactionEnv) (entries : List (Entry K V)) :
    env.consumed entries = entries ↔ ∀ n, env.shutdownAfter = some n → entries.length ≤ n := by
  grind [CompactionEnv.consumed, take_eq_self_iff]

theorem compactAndApply_ok_iff (v : Version K) (store : TableStore K V) (c : Compaction K)
    (snap number : Nat) (env : CompactionEnv) :
    (∃ edit r, compactAndApply v store c snap number env = .ok (edit, r)) ↔
      env.applyError = none ∧ ((makeInputIterator store env.faults c).entries = [] ∨
        env.newFileError = none ∧ env.outputError = none) := by
  unfold compactAndApply doCompactionWork
  dsimp only
  by_cases hnil : (makeInputIterator store env.faults c).entries = []
  · cases env.applyError <;> simp [hnil]
  · have hne : (makeInputIterator store env.faults c).entries.isEmpty = false := by
      simpa using hnil
    rw [hne, if_neg Bool.false_ne_true]
    cases env.newFileError <;> cases env.outputError <;> cases env.applyError <;> simp [hnil]

/-- A compaction commits only after it has read its whole input exactly when it does not
    commit at all, or no input meets an error and shutdown is not seen before the end of the
    input: neither is looked at between the loop and the edit. -/
theorem commit_exhausts_iff (v : Version K) (store : TableStore K V) (c : Compaction K)
    (snap number : Nat) (env : CompactionEnv) :
    (∀ edit r, compactAndApply v store c snap number env = .ok (edit, r) →
        env.Exhausts (makeInputIterator store env.faults c)) ↔
      (env.applyError ≠ none ∨ (makeInputIterator store env.faults c).entries ≠ [] ∧
        (env.newFileError ≠ none ∨ env.outputError ≠ none)) ∨
      ((∀ n, env.shutdownAfter = some n →
          (makeInputIterator store env.faults c).entries.length ≤ n) ∧
        ∀ f ∈ c.inputs0 ++ c.inputs1,
          ((store f.number).scan (env.faults f.number)).status = none) := by
  rw [← CompactionEnv.consumed_eq_iff, ← makeInputIterator_status_eq_none]
  have hok := compactAndApply_ok_iff v store c snap number env
  constructor
  · intro h
    by_cases hcommit : ∃ edit r, compactAndApply v store c snap number env = .ok (edit, r)
    · obtain ⟨edit, r, her⟩ := hcommit
      exact Or.inr (h edit r her)
    · rw [hok] at hcommit
      tauto
  · intro h edit r her
    obtain h | h := h
    · have := hok.mp ⟨edit, r, her⟩
      tauto
    · exact h

end Install

/-! ## An example: a deletion over two adjacent files -/

section Example

open Version

/-- `CompactRange` of level 0 over all keys. -/
def straddlingCompaction : Compaction Nat :=
  straddling.setupOtherInputs 2097152 0 (straddling.getOverlappingInputs 0 none none)

theorem straddlingCompaction_picked : Picked straddling straddlingCompaction :=
  .manual 2097152 none none (show 0 + 1 < kNumLevels by decide) rfl

def straddlingFile : FileMetaData Nat :=
  ⟨7, 1, ⟨3, packSequenceAndType 6 .value⟩, ⟨5, packSequenceAndType 2 .value⟩⟩

def straddlingOutput : Table Nat String :=
  Table.ofEntries [⟨⟨3, packSequenceAndType 6 .value⟩, "a"⟩,
    ⟨⟨5, packSequenceAndType 2 .value⟩, "d"⟩] (by decide) (by decide)

theorem straddling_number : ∀ level, ∀ f ∈ straddling.files level, f.number ≠ 7
  | 0, f, hf => by rw [mem_singleton.mp hf]; decide
  | 1, f, hf => by
    obtain rfl | rfl := mem_pair.mp hf
    · decide
    · decide
  | _ + 2, _, hf => absurd hf not_mem_nil

theorem straddlingCompaction_exhausts : ({} : CompactionEnv).Exhausts
    (makeInputIterator straddlingStore ({} : CompactionEnv).faults straddlingCompaction) :=
  ⟨rfl, rfl⟩

theorem compaction_preserves_reads_straddling :
    straddling.Intact straddlingStore ∧ straddling.LevelsSorted ∧
    straddling.LevelOrder straddlingStore ∧ Picked straddling straddlingCompaction ∧
    ∀ val, Entry.Visible (straddling.entries straddlingStore) 5 9 val ↔
      Entry.Visible ((straddling.applyEdit
        (compactionEdit straddlingCompaction (some straddlingFile))).entries
          (Function.update straddlingStore 7 straddlingOutput)) 5 9 val := by
  refine ⟨straddling_intact, straddling_levelsSorted, straddling_levelOrder,
    straddlingCompaction_picked, ?_⟩
  have hwork : doCompactionWork straddling straddlingStore straddlingCompaction
      (smallestSnapshot [] 9) 7 {} = .ok (some (straddlingFile, straddlingOutput.entries)) := rfl
  exact compaction_preserves_reads straddling_intact straddling_levelsSorted
    straddling_levelOrder straddlingCompaction_picked straddling_number
    straddlingCompaction_exhausts [] 9 (by decide) hwork
    (by intro p hp; rw [← Option.some.inj hp]) 5 (by decide)

theorem straddling_visible {s : Nat} (hs : 2 ≤ s) :
    Entry.Visible (straddling.entries straddlingStore) 5 s "d" := by
  refine ⟨⟨⟨5, packSequenceAndType 2 .value⟩, "d"⟩, ⟨⟨1, ⟨2, 60, _, _⟩,
    mem_cons_of_mem _ mem_cons_self, by decide⟩, rfl, hs, ?_⟩,
    ⟨⟨5, 2, .value⟩, rfl, rfl, rfl⟩⟩
  intro x hx hu _
  obtain ⟨level, f, hf, hx⟩ := hx
  match level, hf with
  | 0, hf =>
    obtain rfl := mem_singleton.mp hf
    obtain rfl := mem_singleton.mp hx
    exact absurd hu (by decide)
  | 1, hf =>
    obtain rfl | rfl := mem_pair.mp hf
    · obtain rfl | rfl := mem_pair.mp hx
      · exact absurd hu (by decide)
      · exact absurd hu (by decide)
    · obtain rfl | rfl := mem_pair.mp hx
      · exact absurd hu (by decide)
      · exact le_refl _

theorem straddling_installed {snap : Nat} {env : CompactionEnv}
    {r : Option (FileMetaData Nat × List (Entry Nat String))}
    (hwork : doCompactionWork straddling straddlingStore straddlingCompaction snap 7 env = .ok r)
    {t : Table Nat String} (ht : ∀ p ∈ r, t.entries = p.2) {e : Entry Nat String}
    (he : e ∈ (straddling.applyEdit (compactionEdit straddlingCompaction
      (r.map Prod.fst))).entries (Function.update straddlingStore 7 t)) : ∃ p ∈ r, e ∈ p.2 := by
  have hclosed := straddlingCompaction_picked.closed straddling_levelsSorted
    fun level f hf => (straddling_intact level f hf).smallest_le_largest
  obtain h | ⟨level, f, hf, hstays, -⟩ :=
    (mem_entries_installed straddling_intact hclosed (by decide) straddling_number hwork ht).mp he
  · exact h
  · exfalso
    apply hstays
    match level, hf with
    | 0, hf => exact Or.inl ⟨rfl, hf⟩
    | 1, hf => exact Or.inr ⟨rfl, hf⟩

def emptyTable : Table Nat String := Table.ofEntries [] Table.strict_nil Table.wellFormed_nil

/-- With `kMaxSequenceNumber` as the last sequence the loop drops every entry. -/
theorem compaction_drops_all_at_max :
    (straddling.Intact straddlingStore ∧ straddling.LevelsSorted ∧
      straddling.LevelOrder straddlingStore ∧ Picked straddling straddlingCompaction ∧
      ({} : CompactionEnv).Exhausts (makeInputIterator straddlingStore
        ({} : CompactionEnv).faults straddlingCompaction)) ∧
    doCompactionWork straddling straddlingStore straddlingCompaction
      (smallestSnapshot [] kMaxSequenceNumber) 7 {} =
        .ok (some (⟨7, 1, .cleared, .cleared⟩, emptyTable.entries)) ∧
    Entry.Visible (straddling.entries straddlingStore) 5 kMaxSequenceNumber "d" ∧
    ¬ Entry.Visible ((straddling.applyEdit (compactionEdit straddlingCompaction
      (some ⟨7, 1, .cleared, .cleared⟩))).entries
        (Function.update straddlingStore 7 emptyTable)) 5 kMaxSequenceNumber "d" := by
  have hwork : doCompactionWork straddling straddlingStore straddlingCompaction
      (smallestSnapshot [] kMaxSequenceNumber) 7 {} =
        .ok (some (⟨7, 1, .cleared, .cleared⟩, emptyTable.entries)) := rfl
  refine ⟨⟨straddling_intact, straddling_levelsSorted, straddling_levelOrder,
    straddlingCompaction_picked, straddlingCompaction_exhausts⟩, hwork,
    straddling_visible (by decide), ?_⟩
  intro h
  obtain ⟨e, ⟨he, -⟩, -⟩ := h
  obtain ⟨p, hp, he⟩ := straddling_installed hwork
    (by intro p hp; rw [← Option.some.inj hp]) he
  rw [← Option.some.inj hp] at he
  exact absurd he not_mem_nil

def firstTable : Table Nat String :=
  Table.ofEntries [⟨⟨3, packSequenceAndType 6 .value⟩, "a"⟩] (by decide) (by decide)

/-- Shutdown is seen after the first entry. The edit is still installed, and the value of the
    last key is gone. -/
theorem commit_after_shutdown_loses :
    (straddling.Intact straddlingStore ∧ straddling.LevelsSorted ∧
      straddling.LevelOrder straddlingStore ∧ Picked straddling straddlingCompaction) ∧
    (∃ edit f, compactAndApply straddling straddlingStore straddlingCompaction
        (smallestSnapshot [] 9) 7 { shutdownAfter := some 1 } =
          .ok (edit, some (f, firstTable.entries)) ∧
      edit.deletedFiles = [(0, 3), (1, 1), (1, 2)] ∧
      Entry.Visible (straddling.entries straddlingStore) 5 9 "d" ∧
      ¬ Entry.Visible ((straddling.applyEdit edit).entries
        (Function.update straddlingStore 7 firstTable)) 5 9 "d") := by
  have hwork : doCompactionWork straddling straddlingStore straddlingCompaction
      (smallestSnapshot [] 9) 7 { shutdownAfter := some 1 } =
        .ok (some (⟨7, 1, ⟨3, packSequenceAndType 6 .value⟩, ⟨3, packSequenceAndType 6 .value⟩⟩,
          firstTable.entries)) := rfl
  refine ⟨⟨straddling_intact, straddling_levelsSorted, straddling_levelOrder,
    straddlingCompaction_picked⟩, _, _, rfl, rfl, straddling_visible (by decide), ?_⟩
  intro h
  obtain ⟨e, ⟨he, hu, -⟩, -⟩ := h
  obtain ⟨p, hp, he⟩ := straddling_installed hwork
    (by intro p hp; rw [← Option.some.inj hp]) he
  rw [← Option.some.inj hp] at he
  obtain rfl := mem_singleton.mp he
  exact absurd hu (by decide)

end Example

end LevelDB
