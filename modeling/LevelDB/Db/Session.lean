/-
  The invariant of an open database.

  `Session` ties memory to disk: the manifest restores a checkpoint with the current version, the
  tables hold the operations up to `base`, the immutable memtable those up to `mid`, the memtable
  the rest, and the logs cover the history from the log number of every checkpoint on.

  Every operation keeps it, and every disk an operation passes through is recoverable.
-/
import LevelDB.Db.Machine

namespace LevelDB

open List

variable {K V : Type} [LinearOrder K] [Inhabited K] [Inhabited V]

def Db.inFlight (s : Db K V) : List (Op K V) := s.pending.elim [] WriteBatch.ops

/-- The invariant of an open database with the acknowledged operations `hist`. -/
structure Session (cfg : Config K V) (full : Prop) (s : Db K V) (hist : List (Op K V)) (m : Nat)
    (file : LogFile (VersionEdit K)) (A : Set (Checkpoint K)) (P : Set (Nat × Nat))
    (c : Checkpoint K) (mid : Nat) : Prop where
  sound : Sound cfg full s.disk hist s.inFlight m file A P
  checkpoint : c ∈ A
  restores : Restores cfg file.records c
  current : s.versions.current = c.version
  logNumber : s.versions.logNumber = c.log
  prevLogNumber : s.versions.prevLogNumber = 0
  pointers : ∀ level k, s.versions.compactPointer level = some k → k ≠ .cleared
  attached : Attached s.versions m
  next_le : ∀ x ∈ A, x.next ≤ s.versions.nextFileNumber
  lastSequence : s.versions.lastSequence = hist.length
  base_le : c.base ≤ mid
  mid_le : mid ≤ hist.length
  mem : s.mem = memOf (mid + 1) (hist.drop mid)
  imm : (s.imm = none ∧ c.base = mid) ∨
    s.imm = some (memOf (c.base + 1) ((hist.take mid).drop c.base))
  here : (s.logfileNumber, mid) ∈ P
  pairs_le : ∀ p ∈ P, p.1 ≤ s.logfileNumber
  keys_le : ∀ n ∈ s.disk.logs.keys, n ≤ s.logfileNumber
  logfile : ∃ f, s.disk.logs.lookup s.logfileNumber = some f
  logfile_lt : s.logfileNumber < s.versions.nextFileNumber
  pending : ∀ b ∈ s.pending, b.sequence = hist.length + 1 ∧
    ∃ f records, s.disk.logs.lookup s.logfileNumber = some f ∧ f.records = records ++ [b]
  job : ∀ j ∈ s.job, Picked s.versions.current j.compaction ∧
    (∀ x ∈ A, x.next ≤ j.number) ∧ j.number < s.versions.nextFileNumber

variable {cfg : Config K V} {full : Prop} {s : Db K V} {hist : List (Op K V)} {m : Nat}
  {file : LogFile (VersionEdit K)} {A : Set (Checkpoint K)} {P : Set (Nat × Nat)}
  {c : Checkpoint K} {mid : Nat}

/-! ## Writes and switches -/

theorem Sound.base_le {d : Disk K V} (h : Sound cfg full d hist [] m file A P) {x : Checkpoint K}
    (hx : x ∈ A) : x.base ≤ hist.length := by
  obtain ⟨H, hH, hcov⟩ := h.covers d.logs (.refl _)
  obtain rfl : H = hist := by simpa using hH
  exact (hcov _ (h.pairs x hx)).base_le

namespace Session

omit [Inhabited K] in
theorem valid_extend {store : TableStore K V} {pend ops : List (Op K V)} {x : Checkpoint K}
    (h : x.Valid full store hist pend) (hle : x.base ≤ (hist ++ pend).length) :
    x.Valid full store hist (pend ++ ops) :=
  { h with
    holds := by
      rw [← append_assoc, take_append_of_le_length hle]
      exact h.holds }

omit [Inhabited K] in
theorem valid_acknowledge {store : TableStore K V} {ops : List (Op K V)} {x : Checkpoint K}
    (h : x.Valid full store hist ops) : x.Valid full store (hist ++ ops) [] :=
  { h with
    holds := by
      rw [append_nil]
      exact h.holds
    last_le := by
      have := h.last_le
      rw [length_append]
      omega }

omit [Inhabited K] [Inhabited V] in
theorem inFlight_of_pending_none (h : s.pending = none) : s.inFlight = [] := by
  unfold Db.inFlight
  rw [h]
  rfl

theorem beginWrite (h : Session cfg full s hist m file A P c mid) (hpending : s.pending = none)
    {ops : List (Op K V)} (hfits : s.versions.lastSequence + ops.length ≤ kMaxSequenceNumber) :
    Session cfg full (s.beginWrite ops) hist m file A P c mid := by
  have hsound := h.sound
  rw [inFlight_of_pending_none hpending] at hsound
  obtain ⟨f, hf⟩ := h.logfile
  have hlogs : (s.beginWrite ops).disk.logs =
      s.disk.logs.insert s.logfileNumber (f.append ⟨s.versions.lastSequence + 1, ops⟩) := by
    unfold Db.beginWrite Disk.appendLog
    dsimp only
    rw [hf]
    rfl
  refine { h with sound := ?_, keys_le := ?_, logfile := ?_, pending := ?_ }
  · refine { hsound with valid := ?_, covers := ?_, bounded := ?_ }
    · intro x hx
      obtain ⟨hval, hm⟩ := hsound.valid x hx
      have hle : x.base ≤ (hist ++ []).length := by simpa using hsound.base_le hx
      exact ⟨valid_extend hval hle, hm⟩
    · rw [hlogs]
      exact hsound.covers.append (b := ⟨s.versions.lastSequence + 1, ops⟩) h.keys_le h.pairs_le hf
        (by rw [h.lastSequence])
    · rw [h.lastSequence] at hfits
      rw [length_append]
      exact hfits
  · rw [hlogs]
    intro n hn
    rw [← AList.mem_keys, AList.mem_insert, AList.mem_keys] at hn
    obtain rfl | hn := hn
    · exact le_refl _
    · exact h.keys_le n hn
  · rw [hlogs]
    exact ⟨_, AList.lookup_insert _⟩
  · intro b hb
    obtain rfl := Option.some.inj hb
    refine ⟨by rw [h.lastSequence], _, f.records, ?_, LogFile.append_records _ _⟩
    rw [hlogs]
    exact AList.lookup_insert _

theorem finishWrite (h : Session cfg full s hist m file A P c mid) {b : WriteBatch K V}
    (hpending : s.pending = some b) :
    Session cfg full (s.finishWrite b) (hist ++ b.ops) m file A P c mid := by
  have hsound := h.sound
  have hflight : s.inFlight = b.ops := by
    unfold Db.inFlight
    rw [hpending]
    rfl
  rw [hflight] at hsound
  obtain ⟨hb, f, records, hf, hr⟩ := h.pending b hpending
  have hlogs : (s.finishWrite b).disk.logs = s.disk.logs.insert s.logfileNumber f.sync := by
    unfold Db.finishWrite Disk.syncLog
    dsimp only
    rw [hf]
    rfl
  have hmid := h.mid_le
  refine { h with sound := ?_, lastSequence := ?_, mid_le := ?_, mem := ?_, imm := ?_,
                  keys_le := ?_, logfile := ?_, pending := ?_ }
  · refine { hsound with valid := ?_, covers := ?_, bounded := ?_ }
    · exact fun x hx => ⟨valid_acknowledge (hsound.valid x hx).1, (hsound.valid x hx).2⟩
    · rw [hlogs]
      exact hsound.covers.sync h.keys_le h.pairs_le hf hr hb
    · have := hsound.bounded
      simpa [Db.finishWrite, Db.inFlight] using this
  · rw [length_append, ← h.lastSequence]
    rfl
  · rw [length_append]
    omega
  · have hnum : mid + 1 + (hist.drop mid).length = b.sequence := by
      rw [length_drop, hb]
      omega
    rw [drop_append_of_le_length hmid, memOf_append, hnum, ← h.mem]
    rfl
  · rw [take_append_of_le_length hmid]
    exact h.imm
  · rw [hlogs]
    intro n hn
    rw [← AList.mem_keys, AList.mem_insert, AList.mem_keys] at hn
    obtain rfl | hn := hn
    · exact le_refl _
    · exact h.keys_le n hn
  · rw [hlogs]
    exact ⟨_, AList.lookup_insert _⟩
  · intro x hx
    cases hx

omit [LinearOrder K] [Inhabited K] [Inhabited V] in
theorem attached_mono {vs vs' : VersionSet K} (h : Attached vs m)
    (hd : vs'.descriptorLog = vs.descriptorLog)
    (hm : vs'.manifestFileNumber = vs.manifestFileNumber)
    (hn : vs.nextFileNumber ≤ vs'.nextFileNumber) : Attached vs' m := by
  grind [Attached]

theorem switchMemTable (h : Session cfg full s hist m file A P c mid)
    (hpending : s.pending = none) (himm : s.imm = none) :
    Session cfg full s.switchMemTable hist m file A
      (insert (s.versions.nextFileNumber, hist.length) P) c hist.length := by
  have hsound := h.sound
  rw [inFlight_of_pending_none hpending] at hsound
  have hkeys : ∀ n ∈ s.disk.logs.keys, n < s.versions.nextFileNumber :=
    fun n hn => (h.keys_le n hn).trans_lt h.logfile_lt
  have hpairs : ∀ p ∈ P, p.1 ≤ s.versions.nextFileNumber :=
    fun p hp => (h.pairs_le p hp).trans h.logfile_lt.le
  have hflight : s.switchMemTable.inFlight = [] := inFlight_of_pending_none hpending
  have hbase : c.base = mid := by
    obtain ⟨-, hb⟩ | hi := h.imm
    · exact hb
    · rw [himm] at hi
      cases hi
  refine { h with sound := ?_, attached := ?_, next_le := ?_, base_le := ?_, mid_le := le_refl _,
                  mem := ?_, imm := ?_, here := Set.mem_insert _ _, pairs_le := ?_, keys_le := ?_,
                  logfile := ⟨_, AList.lookup_insert _⟩, logfile_lt := Nat.lt_succ_self _,
                  pending := ?_, job := ?_ }
  · rw [hflight]
    exact { hsound with
      pairs := fun x hx => Set.mem_insert_of_mem _ (hsound.pairs x hx)
      covers := hsound.covers.create_self hkeys hpairs }
  · exact attached_mono h.attached rfl rfl (Nat.le_succ _)
  · exact fun x hx => (h.next_le x hx).trans (Nat.le_succ _)
  · exact h.base_le.trans h.mid_le
  · rw [drop_length]
    rfl
  · right
    rw [take_length, hbase]
    exact congrArg some h.mem
  · intro p hp
    obtain rfl | hp := Set.mem_insert_iff.mp hp
    · exact le_refl _
    · exact hpairs p hp
  · intro n hn
    have hn' : n ∈ s.disk.logs.insert s.versions.nextFileNumber .empty := hn
    rw [AList.mem_insert, AList.mem_keys] at hn'
    obtain rfl | hn' := hn'
    · exact le_refl _
    · exact (hkeys n hn').le
  · intro b hb
    have hb' : b ∈ s.pending := hb
    rw [hpending] at hb'
    cases hb'
  · intro j hj
    obtain ⟨h1, h2, h3⟩ := h.job j hj
    exact ⟨h1, h2, h3.trans (Nat.lt_succ_self _)⟩

/-! ## Edits -/

theorem decodes_of_holds {store : TableStore K V} {v : Version K} {edit : VersionEdit K}
    {H : List (Op K V)} (hholds : Holds full (v.applyEdit edit) store H) (hfresh : v.Fresh edit)
    (hnew : ∀ p ∈ edit.newFiles, p.1 < kNumLevels)
    (hdel : ∀ p ∈ edit.deletedFiles, p.1 < kNumLevels)
    (hptr : ∀ p ∈ edit.compactPointers, p.1 < kNumLevels ∧ p.2 ≠ .cleared) :
    edit.decodeError = none := by
  refine VersionEdit.decodeError_eq_none_iff.mpr ⟨hptr, hdel, ?_⟩
  intro p hp
  have hmem : p.2 ∈ (v.applyEdit edit).files p.1 :=
    (Version.mem_applyEdit (hfresh p.1) (hnew p hp)).mpr
      (Or.inl (VersionEdit.mem_newFilesAt.mpr hp))
  exact ⟨hnew p hp, hholds.keys_ne_cleared hmem⟩

structure Commits (s : Db K V) (c c' : Checkpoint K) (hist : List (Op K V)) (vs : VersionSet K)
    (d : Disk K V) (full : Prop) (edit : VersionEdit K) : Prop where
  versions : vs = { s.versions with nextFileNumber := vs.nextFileNumber }
  next_le : s.versions.nextFileNumber ≤ vs.nextFileNumber
  version : c'.version = s.versions.current.applyEdit edit
  next : c'.next = vs.nextFileNumber
  last : c'.last = hist.length
  log : c'.log = edit.logNumber.getD c.log
  comparator : edit.comparator = none
  prevLogNumber : edit.prevLogNumber = none
  fresh : s.versions.current.Fresh edit
  newLevels : ∀ p ∈ edit.newFiles, p.1 < kNumLevels
  deletedLevels : ∀ p ∈ edit.deletedFiles, p.1 < kNumLevels
  pointers : ∀ p ∈ edit.compactPointers, p.1 < kNumLevels ∧ p.2 ≠ .cleared
  follows : ∀ b, Follows b c.version c.next → Follows (b.apply edit) c'.version c'.next
  holds : Holds full c'.version d.store (hist.take c'.base)

section

variable (h : Session cfg full s hist m file A P c mid)
include h

theorem commit {c' : Checkpoint K}
    {vs : VersionSet K} {d : Disk K V} {edit : VersionEdit K} {n : Nat}
    {imm : Option (MemTable K V)} (he : Commits s c c' hist vs d full edit)
    (hd : s.disk.Agrees n d) (hn : ∀ x ∈ A, x.next ≤ n) (hbase : c'.base ≤ mid)
    (hp : (c'.log, c'.base) ∈ P)
    (himm : (imm = none ∧ c'.base = mid) ∨
      imm = some (memOf (c'.base + 1) ((hist.take mid).drop c'.base))) :
    (∀ x ∈ (vs.logAndApply cfg d edit).passed, Recoverable cfg full x hist s.inFlight) ∧
      ∃ m' file', Session cfg full
        { s with disk := (vs.logAndApply cfg d edit).disk
                 versions := (vs.logAndApply cfg d edit).versions
                 imm := imm
                 job := none } hist m' file' {c'} P c' mid := by
  have hvs := he.versions
  have hmid := h.mid_le
  have hadv : Advances cfg (vs.completeEdit edit) c c' := by
    refine advances_completeEdit (decodes_of_holds (by rw [← he.version]; exact he.holds) he.fresh
      he.newLevels he.deletedLevels he.pointers) he.comparator ?_ he.next ?_ ?_ he.follows ?_
    · rw [he.prevLogNumber, hvs]
      exact h.prevLogNumber
    · rw [he.last, hvs]
      exact h.lastSequence.symm
    · rw [he.log, hvs, ← h.logNumber]
    · exact (h.next_le c h.checkpoint).trans he.next_le
  have hptr : ∀ level k, vs.compactPointer level = some k → k ≠ .cleared := by
    rw [hvs]
    exact h.pointers
  have hval : c'.Valid full d.store hist s.inFlight := by
    obtain ⟨st, -, hst⟩ := h.restores.replays
    refine ⟨?_, fun level f hf => (he.follows _ hst.follows).number_lt hf, ?_, ?_, ?_⟩
    · rw [take_append_of_le_length (hbase.trans hmid)]
      exact he.holds
    · rw [he.last]
      exact hbase.trans hmid
    · rw [he.last]
      exact le_max_left _ _
    · rw [he.next]
      exact (h.pairs_le _ hp).trans_lt (h.logfile_lt.trans_le he.next_le)
  have hcur : vs.current = c.version := by
    rw [hvs]
    exact h.current
  have hatt : Attached vs m := by
    refine attached_mono h.attached ?_ ?_ he.next_le
    · rw [hvs]
    · rw [hvs]
  have hsound := h.sound.agrees hd hn
  have hver : c'.version = vs.current.applyEdit edit := by
    rw [hvs]
    exact he.version
  have hinst := logAndApply_installed d hver hadv hptr
  obtain ⟨hpassed, m', file', hs', hr', hdesc⟩ :=
    logAndApply_sound hsound h.restores h.checkpoint hcur hatt he.next hadv hptr hval hp
  have hlogs : (vs.logAndApply cfg d edit).disk.logs = s.disk.logs :=
    (logAndApply_logs cfg vs d edit).trans hd.logs
  refine ⟨hpassed, m', file', ?_⟩
  exact
    { sound := hs'
      checkpoint := rfl
      restores := hr'
      current := hinst.current
      logNumber := hinst.logNumber
      prevLogNumber := hinst.prevLogNumber
      pointers := hinst.pointers
      attached := Or.inl hdesc
      next_le := by
        intro x hx
        rw [Set.mem_singleton_iff.mp hx, he.next]
        exact hinst.nextFileNumber.ge
      lastSequence := by
        rw [hinst.lastSequence, hvs]
        exact h.lastSequence
      base_le := hbase
      mid_le := hmid
      mem := h.mem
      imm := himm
      here := h.here
      pairs_le := h.pairs_le
      keys_le := by rw [hlogs]; exact h.keys_le
      logfile := by rw [hlogs]; exact h.logfile
      logfile_lt := by
        rw [hinst.nextFileNumber]
        exact h.logfile_lt.trans_le he.next_le
      pending := by rw [hlogs]; exact h.pending
      job := fun j hj => by cases hj }

/-! ## Flushes -/

theorem holds :
    Holds full s.versions.current s.disk.store (hist.take c.base) := by
  have hholds := (h.sound.valid c h.checkpoint).1.holds
  rw [take_append_of_le_length (h.base_le.trans h.mid_le)] at hholds
  rw [h.current]
  exact hholds

theorem number_lt {level : Nat}
    {f : FileMetaData K} (hf : f ∈ s.versions.current.files level) : f.number < c.next := by
  rw [h.current] at hf
  exact (h.sound.valid c h.checkpoint).1.numbers level f hf

theorem length_le :
    hist.length ≤ kMaxSequenceNumber := by
  have := h.sound.bounded
  rw [length_append] at this
  omega

theorem touch {d : Disk K V} {n k : Nat}
    {imm : Option (MemTable K V)} {job : Option (Job K)} (hd : s.disk.Agrees n d)
    (hn : ∀ x ∈ A, x.next ≤ n) (hk : s.versions.nextFileNumber ≤ k)
    (himm : (imm = none ∧ c.base = mid) ∨
      imm = some (memOf (c.base + 1) ((hist.take mid).drop c.base)))
    (hjob : ∀ j ∈ job, Picked s.versions.current j.compaction ∧
      (∀ x ∈ A, x.next ≤ j.number) ∧ j.number < k) :
    Session cfg full
      { s with disk := d
               versions := { s.versions with nextFileNumber := k }
               imm := imm
               job := job } hist m file A P c mid :=
  { h with
    sound := h.sound.agrees hd hn
    attached := attached_mono h.attached rfl rfl hk
    next_le := fun x hx => (h.next_le x hx).trans hk
    imm := himm
    keys_le := by rw [hd.logs]; exact h.keys_le
    logfile := by rw [hd.logs]; exact h.logfile
    logfile_lt := h.logfile_lt.trans_le hk
    pending := by rw [hd.logs]; exact h.pending
    job := hjob }

theorem flush_commits {ops : List (Op K V)}
    (hops : hist.take c.base ++ ops = hist.take mid) (hne : ops ≠ []) :
    Commits s c
      ⟨s.versions.current.applyEdit (flushEdit cfg s.versions.current
        (buildTable cfg s.versions.nextFileNumber (memOf (c.base + 1) ops)) s.logfileNumber),
        s.versions.nextFileNumber + 1, hist.length, s.logfileNumber, mid⟩ hist
      { s.versions with nextFileNumber := s.versions.nextFileNumber + 1 }
      (s.disk.finishTable s.versions.nextFileNumber (cfg.writeTable (memOf (c.base + 1) ops))) full
      (flushEdit cfg s.versions.current
        (buildTable cfg s.versions.nextFileNumber (memOf (c.base + 1) ops)) s.logfileNumber) := by
  have hlen : (hist.take c.base).length = c.base :=
    length_take_of_le (h.base_le.trans h.mid_le)
  have hbelow : ∀ l, ∀ g ∈ s.versions.current.files l, g.number < s.versions.nextFileNumber :=
    fun l g hg => (h.number_lt hg).trans_le (h.next_le c h.checkpoint)
  have hmax : (hist.take c.base).length ≤ kMaxSequenceNumber := by
    rw [hlen]
    exact (h.base_le.trans h.mid_le).trans h.length_le
  have hflush := h.holds.flush hmax cfg s.logfileNumber hbelow hne
  rw [hlen, hops] at hflush
  generalize hf : buildTable cfg s.versions.nextFileNumber (memOf (c.base + 1) ops) = f at hflush ⊢
  have hfn : f.number = s.versions.nextFileNumber := by rw [← hf]; rfl
  have hnew : (flushEdit cfg s.versions.current f s.logfileNumber).newFiles =
      [(s.versions.current.pickLevelForMemTableOutput cfg.maxFileSize f.smallest.userKey
        f.largest.userKey, f)] := rfl
  have hnodup : ((flushEdit cfg s.versions.current f s.logfileNumber).newFiles.map
      fun p => p.2.number).Nodup := by
    rw [hnew]
    exact nodup_singleton _
  refine ⟨rfl, Nat.le_succ _, rfl, rfl, rfl, rfl, rfl, rfl, ?_, ?_, ?_, ?_, ?_, ?_⟩
  · refine Version.fresh_of_numbers hnodup ?_
    intro p hp l g hg
    rw [hnew] at hp
    rw [mem_singleton.mp hp, hfn]
    exact hbelow l g hg
  · intro p hp
    rw [hnew] at hp
    rw [mem_singleton.mp hp]
    exact (Version.pickLevelForMemTableOutput_le _ _ _ _).trans_lt
      (show kMaxMemCompactLevel < kNumLevels by decide)
  · exact fun p hp => absurd hp not_mem_nil
  · exact fun p hp => absurd hp not_mem_nil
  · intro b hb
    rw [h.current]
    refine hb.fresh ((h.next_le c h.checkpoint).trans (Nat.le_succ _)) (h.current ▸ hnodup) ?_
    intro p hp
    rw [mem_singleton.mp hp, hfn]
    exact ⟨h.next_le c h.checkpoint, Nat.lt_succ_self _⟩
  · rw [Disk.store_finishTable]
    exact hflush

theorem flush {imm : MemTable K V} (himm : s.imm = some imm) (hjob : s.job = none) :
    (∀ x ∈ (s.flush cfg imm).1, Recoverable cfg full x hist s.inFlight) ∧
      ∃ m' file' A' c', Session cfg full (s.flush cfg imm).2 hist m' file' A' P c' mid := by
  have hmem : imm = memOf (c.base + 1) ((hist.take mid).drop c.base) := by
    obtain ⟨hnone, -⟩ | hsome := h.imm
    · rw [himm] at hnone
      cases hnone
    · exact Option.some.inj (himm.symm.trans hsome)
  have hops : hist.take c.base ++ (hist.take mid).drop c.base = hist.take mid := by
    have hb := h.base_le
    conv_rhs => rw [← List.take_append_drop c.base (hist.take mid)]
    rw [take_take, min_eq_left hb]
  generalize (hist.take mid).drop c.base = ops at hmem hops
  subst hmem
  have hagrees := Disk.Agrees.clearTable s.disk (le_refl s.versions.nextFileNumber)
  unfold Db.flush
  dsimp only
  by_cases hne : ops = []
  · -- nothing to write
    have hsize : ¬ 0 < (buildTable cfg s.versions.nextFileNumber
        (memOf (c.base + 1) ops)).fileSize := by
      rw [hne]
      exact lt_irrefl 0
    have hbase : c.base = mid := by
      have hlen := congrArg List.length hops
      have hb := h.base_le
      have hm := h.mid_le
      rw [hne, append_nil, length_take, length_take] at hlen
      omega
    rw [if_neg hsize]
    have hbuilt : buildTableOn cfg s.disk s.versions.nextFileNumber (memOf (c.base + 1) ops) =
        ([], s.disk.clearTable s.versions.nextFileNumber) := by
      rw [hne]
      rfl
    rw [hbuilt]
    refine ⟨fun x hx => absurd hx not_mem_nil, m, file, A, c, ?_⟩
    exact h.touch hagrees h.next_le (Nat.le_succ _) (Or.inl ⟨rfl, hbase⟩)
      (fun j hj => by
        obtain ⟨h1, h2, h3⟩ := h.job j hj
        exact ⟨h1, h2, h3.trans (Nat.lt_succ_self _)⟩)
  · rw [if_pos (buildTable_fileSize_pos hne)]
    have hempty : (memOf (c.base + 1) ops).isEmpty = false := by
      rw [isEmpty_eq_false_iff]
      exact fun heq => hne (memOf_eq_nil_iff.mp heq)
    have hbuilt : buildTableOn cfg s.disk s.versions.nextFileNumber (memOf (c.base + 1) ops) =
        ([s.disk.clearTable s.versions.nextFileNumber],
          s.disk.finishTable s.versions.nextFileNumber (cfg.writeTable (memOf (c.base + 1) ops))) := by
      unfold buildTableOn
      rw [hempty]
      rfl
    rw [hbuilt]
    obtain ⟨hpassed, m', file', hs⟩ := h.commit (h.flush_commits hops hne)
      (.finishTable s.disk _ (le_refl _)) h.next_le (le_refl _) h.here (Or.inl ⟨rfl, rfl⟩)
    rw [← hjob] at hs
    refine ⟨?_, m', file', _, _, hs⟩
    intro x hx
    obtain hx | hx := mem_append.mp hx
    · rw [mem_singleton.mp hx]
      exact (h.sound.agrees hagrees h.next_le).recoverable
    · exact hpassed x hx

/-! ## Compactions -/

theorem compactPointer_ne_cleared {cp : Compaction K} (hc : Picked s.versions.current cp) :
    cp.level < kNumLevels ∧ cp.compactPointer ≠ .cleared := by
  obtain ⟨f, hf, hptr⟩ := hc.compactPointer_mem h.holds.layered.ranged
  have hclosed := hc.closed h.holds.layered.levelsSorted h.holds.layered.ranged
  refine ⟨(Nat.lt_succ_self _).trans hc.level_lt, ?_⟩
  rw [hptr]
  exact (h.holds.keys_ne_cleared (hclosed.sub0 f hf)).2

theorem move_commits {cp : Compaction K}
    (hc : Picked s.versions.current cp) {f : FileMetaData K} (h0 : cp.inputs0 = [f])
    (h1 : cp.inputs1 = []) :
    Commits s c ⟨s.versions.current.applyEdit cp.moveEdit, s.versions.nextFileNumber, hist.length,
      c.log, c.base⟩ hist s.versions s.disk full cp.moveEdit := by
  have hlayered := h.holds.layered
  have hclosed := hc.closed hlayered.levelsSorted hlayered.ranged
  obtain ⟨hnew, hdel⟩ := moveEdit_files h0
  have hrest : cp.moveEdit.logNumber = none ∧ cp.moveEdit.comparator = none ∧
      cp.moveEdit.prevLogNumber = none ∧
      cp.moveEdit.compactPointers = [(cp.level, cp.compactPointer)] := by
    unfold Compaction.moveEdit
    rw [h0]
    exact ⟨rfl, rfl, rfl, rfl⟩
  obtain ⟨hlog, hcmp, hprev, hptr⟩ := hrest
  refine ⟨rfl, le_refl _, rfl, rfl, rfl, by rw [hlog]; rfl, hcmp, hprev,
    moveEdit_freshAt hlayered.shape hclosed h0, ?_, ?_, ?_, ?_, h.holds.move hc h0 h1⟩
  · intro p hp
    rw [hnew] at hp
    rw [mem_singleton.mp hp]
    exact hc.level_lt
  · intro p hp
    rw [hdel] at hp
    rw [mem_singleton.mp hp]
    exact (Nat.lt_succ_self _).trans hc.level_lt
  · intro p hp
    rw [hptr] at hp
    rw [mem_singleton.mp hp]
    exact h.compactPointer_ne_cleared hc
  · intro b hb
    rw [← h.current] at hb
    exact (hb.move hlayered hclosed h0).mono (h.next_le c h.checkpoint)

theorem moveFile (hjob : s.job = none) {cp : Compaction K} (hc : Picked s.versions.current cp)
    (htrivial : cp.isTrivialMove cfg.maxFileSize = true) :
    (∀ x ∈ (s.moveFile cfg cp).1, Recoverable cfg full x hist s.inFlight) ∧
      ∃ m' file' A' c', Session cfg full (s.moveFile cfg cp).2 hist m' file' A' P c' mid := by
  obtain ⟨f, h0, h1⟩ := inputs_of_isTrivialMove htrivial
  obtain ⟨hpassed, m', file', hs⟩ := h.commit
    (h.move_commits hc h0 h1) (.refl _ _) h.next_le h.base_le
    (h.sound.pairs c h.checkpoint) h.imm
  rw [← hjob] at hs
  exact ⟨hpassed, m', file', _, _, hs⟩

theorem startCompaction {cp : Compaction K}
    (hc : Picked s.versions.current cp) (snap : Nat) (env : CompactionEnv) :
    Session cfg full (s.startCompaction cp snap env) hist m file A P c mid := by
  refine h.touch (.clearTable s.disk (le_refl _)) h.next_le (Nat.le_succ _) h.imm ?_
  intro j hj
  obtain rfl := Option.some.inj hj
  exact ⟨hc, h.next_le, Nat.lt_succ_self _⟩

section

variable (hfull : ¬ full) {cp : Compaction K} (hc : Picked s.versions.current cp)
  {snap number : Nat} {env : CompactionEnv} {r : Output K V} (hnum : ∀ x ∈ A, x.next ≤ number)
  (hlt : ∀ p ∈ r, number < s.versions.nextFileNumber)
  (hwork : doCompactionWork s.versions.current s.disk.store cp snap number env = .ok r)
  (hne : ∀ p ∈ r, p.2 ≠ [])
include hfull hc hnum hlt hwork hne

theorem compaction_commits :
    Commits s c ⟨s.versions.current.applyEdit (compactionEdit cp (r.map Prod.fst)),
        s.versions.nextFileNumber, hist.length, c.log, c.base⟩ hist s.versions
      (r.elim s.disk fun p => s.disk.finishTable p.1.number (cfg.writeTable p.2)) full
      (compactionEdit cp (r.map Prod.fst)) := by
  have hlayered := h.holds.layered
  have hclosed := hc.closed hlayered.levelsSorted hlayered.ranged
  have hbelow : ∀ level, ∀ f ∈ s.versions.current.files level, f.number < number :=
    fun level f hf => (h.number_lt hf).trans_le (hnum c h.checkpoint)
  have hnumber := doCompactionWork_number hwork
  have hnew := compactionEdit_newFiles cp (r.map Prod.fst)
  have hmemnew : ∀ p ∈ (compactionEdit cp (r.map Prod.fst)).newFiles,
      p.1 = cp.level + 1 ∧ p.2.number = number ∧ number < s.versions.nextFileNumber := by
    intro p hp
    rw [hnew] at hp
    obtain ⟨f, hf, rfl⟩ := List.mem_map.mp hp
    obtain ⟨q, hq, rfl⟩ := Option.mem_map.mp (Option.mem_toList.mp hf)
    exact ⟨rfl, hnumber q hq, hlt q hq⟩
  have hnodup : ((compactionEdit cp (r.map Prod.fst)).newFiles.map fun p => p.2.number).Nodup := by
    rw [hnew]
    cases r with
    | none => exact nodup_nil
    | some p => exact nodup_singleton _
  -- the table of the output, or any table where there is none
  have hstore : (r.elim s.disk fun p => s.disk.finishTable p.1.number (cfg.writeTable p.2)).store =
      Function.update s.disk.store number
        (r.elim (s.disk.store number) fun p => cfg.writeTable p.2) := by
    cases hr : r with
    | none => exact (Function.update_eq_self _ _).symm
    | some p =>
      rw [← hnumber p hr]
      exact Disk.store_finishTable _ _ _
  have hentries : ∀ p ∈ r,
      (r.elim (s.disk.store number) fun p => cfg.writeTable p.2).entries = p.2 := by
    intro p hp
    rw [hp]
    refine cfg.writeTable_entries p.2 (hlayered.doCompactionWork_strict hclosed hwork p hp) ?_
    intro e he
    obtain ⟨f, hf, hef⟩ := doCompactionWork_sub hlayered.intact hclosed hwork p hp e he
    obtain hf | hf := mem_append.mp hf
    · exact h.holds.wellFormed ⟨_, f, hclosed.sub0 f hf, hef⟩
    · exact h.holds.wellFormed ⟨_, f, hclosed.sub1 f hf, hef⟩
  have hrest := compactionEdit_eq cp (r.map Prod.fst)
  refine ⟨rfl, le_refl _, rfl, rfl, rfl, by rw [hrest]; rfl, by rw [hrest], by rw [hrest],
    ?_, ?_, ?_, ?_, ?_, ?_⟩
  · grind [Version.fresh_of_numbers]
  · intro p hp
    rw [(hmemnew p hp).1]
    exact hc.level_lt
  · intro p hp
    rw [mem_compactionEdit_deletedFiles] at hp
    obtain ⟨f, -, rfl⟩ | ⟨f, -, rfl⟩ := hp
    · exact (Nat.lt_succ_self _).trans hc.level_lt
    · exact hc.level_lt
  · intro p hp
    rw [hrest] at hp
    rw [mem_singleton.mp hp]
    exact h.compactPointer_ne_cleared hc
  · intro b hb
    rw [h.current]
    refine hb.fresh (h.next_le c h.checkpoint) hnodup ?_
    intro p hp
    obtain ⟨-, hn, hlt'⟩ := hmemnew p hp
    rw [hn]
    exact ⟨hnum c h.checkpoint, hlt'⟩
  · rw [hstore]
    exact h.holds.compact hfull hc (fun level f hf => (hbelow level f hf).ne) hwork hne hentries

theorem installCompaction :
    (∀ x ∈ (s.installCompaction cfg cp r).1, Recoverable cfg full x hist s.inFlight) ∧
      ∃ m' file' A' c', Session cfg full (s.installCompaction cfg cp r).2 hist m' file' A' P c'
        mid := by
  have hagrees : s.disk.Agrees number
      (r.elim s.disk fun p => s.disk.finishTable p.1.number (cfg.writeTable p.2)) := by
    cases hr : r with
    | none => exact .refl _ _
    | some p => exact .finishTable s.disk _ (doCompactionWork_number hwork p hr).ge
  obtain ⟨hpassed, m', file', hs⟩ := h.commit (h.compaction_commits hfull hc hnum hlt hwork hne)
    hagrees hnum h.base_le (h.sound.pairs c h.checkpoint) h.imm
  exact ⟨hpassed, m', file', _, _, hs⟩

end

/-- **Work.** Every operation on files keeps the invariant, and every disk it passes through
    is recoverable, as long as no compaction has an empty output. -/
theorem work {allows : Output K V → Prop}
    (hallows : ∀ r, allows r → ¬ full ∧ ∀ p ∈ r, p.2 ≠ []) {passed : List (Disk K V)} {s' : Db K V}
    (hw : Work cfg allows s passed s') :
    s'.pending = s.pending ∧ (∀ x ∈ passed, Recoverable cfg full x hist s.inFlight) ∧
      ∃ m' file' A' P' c' mid', Session cfg full s' hist m' file' A' P' c' mid' := by
  cases hw with
  | switchMemTable hpending himm =>
    exact ⟨rfl, fun x hx => absurd hx not_mem_nil, m, file, A, _, c, _,
      h.switchMemTable hpending himm⟩
  | @flush imm himm hjob =>
    obtain ⟨hpassed, m', file', A', c', hs⟩ := h.flush himm hjob
    refine ⟨?_, hpassed, m', file', A', P, c', mid, hs⟩
    unfold Db.flush
    dsimp only
    split_ifs <;> rfl
  | moveFile hjob hc htrivial =>
    obtain ⟨hpassed, m', file', A', c', hs⟩ := h.moveFile hjob hc htrivial
    exact ⟨rfl, hpassed, m', file', A', P, c', mid, hs⟩
  | @compactNothing cp env hjob hc hinput hallow =>
    have hwork : doCompactionWork s.versions.current s.disk.store cp 0 s.versions.nextFileNumber
        env = .ok none := by
      unfold doCompactionWork
      dsimp only
      rw [hinput]
      rfl
    obtain ⟨hpassed, m', file', A', c', hs⟩ := h.installCompaction (hallows _ hallow).1 hc h.next_le
      (fun p hp => by cases hp) hwork (hallows _ hallow).2
    exact ⟨rfl, hpassed, m', file', A', P, c', mid, hs⟩
  | startCompaction hjob hc hinput =>
    exact ⟨rfl, fun x hx => absurd hx not_mem_nil, m, file, A, P, c, mid,
      h.startCompaction hc _ _⟩
  | @finishCompaction j output hjob hwork hallow =>
    obtain ⟨hc, hnum, hlt⟩ := h.job j hjob
    obtain ⟨hpassed, m', file', A', c', hs⟩ := h.installCompaction (hallows _ hallow).1 hc hnum
      (fun _ _ => hlt) hwork (hallows _ hallow).2
    exact ⟨rfl, hpassed, m', file', A', P, c', mid, hs⟩
  | abandonCompaction hjob =>
    exact ⟨rfl, fun x hx => absurd hx not_mem_nil, m, file, A, P, c, mid,
      { h with job := fun j hj => by cases hj }⟩

end

end Session

end LevelDB
