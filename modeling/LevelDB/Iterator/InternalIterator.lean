/-
  The merging iterators over the memtables and the tables: the one under a database iterator
  (`DBImpl::NewIterator`, `db/db_impl.cc`, with `Version::AddIterators`) and the input of a
  compaction (`VersionSet::MakeInputIterator`, `db/version_set.cc`).

  The iterators of memtables, tables and errors are parameters (`LeafIterators`). The rest is as in
  the source: files of level 0 one by one, a two-level iterator over the files of every other
  level, and `NewMergingIterator` over all of them.

  * `newIterator_agrees_with_get`, `newIterator_durable`: a database iterator shows what `Get`
    answers, and what the acknowledged operations build.
  * `inputIterator_scan`: a compaction reads what `makeInputIterator` says.
-/
import LevelDB.Db.StorageFailure
import LevelDB.Iterator.DBIter
import LevelDB.Table.MergingIterator
import LevelDB.Version.LevelIterator

namespace LevelDB

open List Cursor SortedList Merge MergingIterator

variable {K V D : Type} [LinearOrder K]

/-- What an iterator shows for an entry. -/
def Entry.kv (e : Entry K V) : InternalKey K × V := (e.key, e.value)

def Entry.ofKv (p : InternalKey K × V) : Entry K V := ⟨p.1, p.2⟩

/-! ## The iterators -/

/-- `MemTable::NewIterator`, `TableCache::NewIterator` (by file number and size) and
    `NewErrorIterator`; `turns` bounds the loops that skip empty tables. -/
structure LeafIterators (K V D : Type) where
  machine : Machine D (InternalKey K × V) (InternalKey K) Status
  ofMemTable : MemTable K V → D
  ofTable : Nat → Nat → D
  ofError : Status → D
  turns : Nat

/-- A child of a merging iterator: a memtable or a table, or the files of a level. -/
abbrev Child (K D : Type) := D ⊕ TwoLevelIterator (LevelFileNumIterator K) D Bytes Status

namespace LeafIterators

variable (t : LeafIterators K V D)

def childMachine : Machine (Child K D) (InternalKey K × V) (InternalKey K) Status :=
  t.machine.sum
    (TwoLevelIterator.machine (newConcatenatingIterator t.machine t.ofTable t.ofError t.turns))

/-- The iterators for files of one level: one each at level 0, otherwise one for all. -/
def levelIterators (level : Nat) (files : List (FileMetaData K)) : List (Child K D) :=
  if level = 0 then files.map fun f => .inl (t.ofTable f.number f.fileSize)
  else if files.isEmpty then [] else [.inr (TwoLevelIterator.new (LevelFileNumIterator.new files))]

def addIterators (v : Version K) : List (Child K D) :=
  (List.range kNumLevels).flatMap fun level => t.levelIterators level (v.files level)

/-- `internal_iter` of `DBImpl::NewIterator`. -/
def internalIterator (mem : MemTable K V) (imm : Option (MemTable K V)) (v : Version K) :
    Unit ⊕ Child K D ⊕ MergingIterator (Child K D) (InternalKey K) :=
  newMergingIterator t.childMachine
    ((mem :: imm.toList).map (fun m => .inl (t.ofMemTable m)) ++ t.addIterators v)

/-- `VersionSet::MakeInputIterator`. -/
def inputIterator (c : Compaction K) :
    Unit ⊕ Child K D ⊕ MergingIterator (Child K D) (InternalKey K) :=
  newMergingIterator t.childMachine
    (t.levelIterators c.level c.inputs0 ++ t.levelIterators (c.level + 1) c.inputs1)

/-- The calls of both, on entries. -/
def mergedMachine : Machine (Unit ⊕ Child K D ⊕ MergingIterator (Child K D) (InternalKey K))
    (Entry K V) (InternalKey K) Status :=
  (newMachine t.childMachine InternalKey.compare).map Entry.ofKv id

/-! ## What they stand for -/

/-- A new iterator over the entries. -/
def Reads (es : List (Entry K V)) (it : D) : Prop :=
  t.machine.At Prod.fst id (fun _ => True) (es.map Entry.kv) it (es.map Entry.kv).length

/-- The file can be opened, and its table is read as the store says. -/
structure Opens (store : TableStore K V) (f : FileMetaData K) : Prop where
  number_lt : f.number < 2 ^ 64
  fileSize_lt : f.fileSize < 2 ^ 64
  reads : t.Reads (store f.number).entries (t.ofTable f.number f.fileSize)

/-- New iterators, one for each of the lists. -/
def Iterates (children : List (Child K D)) (lists : List (List (Entry K V))) : Prop :=
  Forall₂ (fun s es => t.childMachine.At Prod.fst id (fun _ => True) (es.map Entry.kv) s
    (es.map Entry.kv).length) children lists

end LeafIterators

/-- The lists under `levelIterators`. -/
def levelContents (store : TableStore K V) (level : Nat) (files : List (FileMetaData K)) :
    List (List (Entry K V)) :=
  if level = 0 then files.map fun f => (store f.number).entries
  else if files.isEmpty then [] else [files.flatMap fun f => (store f.number).entries]

/-- The lists under `internalIterator`. -/
def contents (mem : MemTable K V) (imm : Option (MemTable K V)) (v : Version K)
    (store : TableStore K V) : List (List (Entry K V)) :=
  (mem :: imm.toList) ++
    (List.range kNumLevels).flatMap fun level => levelContents store level (v.files level)

theorem levelContents_flatten (store : TableStore K V) (level : Nat)
    (files : List (FileMetaData K)) :
    (levelContents store level files).flatten = files.flatMap fun f => (store f.number).entries := by
  unfold levelContents
  split_ifs with h1 h2
  · rfl
  · rw [List.isEmpty_iff.mp h2]
    rfl
  · rw [flatten_singleton]

theorem contents_flatten (mem : MemTable K V) (imm : Option (MemTable K V)) (v : Version K)
    (store : TableStore K V) :
    (contents mem imm v store).flatten = (mem :: imm.toList).flatten ++
      ((List.range kNumLevels).flatMap v.files).flatMap fun f => (store f.number).entries := by
  unfold contents
  rw [flatten_append, flatMap_assoc]
  refine congrArg _ ?_
  induction List.range kNumLevels with
  | nil => rfl
  | cons level levels ih =>
    rw [flatMap_cons, flatMap_cons, flatten_append, levelContents_flatten, ih]

/-- The files of a level, or of an input of a compaction. -/
structure LevelFiles (t : LeafIterators K V D) (store : TableStore K V) (level : Nat)
    (files : List (FileMetaData K)) : Prop where
  describes : ∀ f ∈ files, Version.Describes f (store f.number)
  sorted : level ≠ 0 → SortedDisjoint files
  numbers : (files.map FileMetaData.number).Nodup
  opens : ∀ f ∈ files, t.Opens store f
  turns : files.length ≤ t.turns

section Level

variable {t : LeafIterators K V D} {store : TableStore K V} {level : Nat}
  {files : List (FileMetaData K)}

theorem levelContents_strict (h : LevelFiles t store level files) :
    ∀ es ∈ levelContents store level files, Strict Entry.key es := by
  intro es hes
  unfold levelContents at hes
  split_ifs at hes with h1 h2
  · obtain ⟨f, -, rfl⟩ := List.mem_map.mp hes
    exact (store f.number).sorted
  · cases hes
  · rw [mem_singleton.mp hes]
    refine pairwise_flatMap.mpr ⟨fun f _ => (store f.number).sorted, ?_⟩
    refine (h.sorted h1).imp_of_mem ?_
    intro f g hf hg hfg x hx y hy
    exact ((h.describes f hf).bounds x hx).2.trans_lt
      (hfg.trans_le ((h.describes g hg).bounds y hy).1)

theorem LevelFiles.concatenable (h : LevelFiles t store level files) (hlevel : level ≠ 0) :
    Concatenable t.machine t.ofTable Prod.fst
      (fun f => (store f.number).entries.map Entry.kv) files where
  sorted := h.sorted hlevel
  ranges := fun f hf => (h.describes f hf).smallest_le_largest
  fits := fun f hf => ⟨(h.opens f hf).number_lt, (h.opens f hf).fileSize_lt⟩
  numbers := h.numbers
  strict := fun f _ => pairwise_map.mpr (store f.number).sorted
  bounds := fun f hf => List.forall_mem_map.mpr (h.describes f hf).bounds
  opens := fun f hf => (h.opens f hf).reads

/-- The iterators of a level are new iterators over its lists. -/
theorem levelIterators_iterate (h : LevelFiles t store level files) :
    t.Iterates (t.levelIterators level files) (levelContents store level files) := by
  unfold LeafIterators.levelIterators levelContents
  split_ifs with h1 h2
  · refine forall₂_map_left_iff.mpr (forall₂_map_right_iff.mpr (forall₂_same.mpr ?_))
    exact fun f hf => (h.opens f hf).reads.embed (Machine.embeds_inl _ _)
  · exact Forall₂.nil
  · have hlevel := newConcatenatingIterator_at t.ofError (h.concatenable h1) h.turns
    rw [← map_flatMap] at hlevel
    exact Forall₂.cons (hlevel.embed (Machine.embeds_inr _ _)) Forall₂.nil

end Level

/-- Over new iterators without common keys `NewMergingIterator` is a new iterator over the merge. -/
theorem merged_at {t : LeafIterators K V D} {children : List (Child K D)}
    {lists : List (List (Entry K V))} (hchildren : t.Iterates children lists)
    (hstrict : ∀ es ∈ lists, Strict Entry.key es)
    (hne : lists.flatten.Pairwise fun a b => a.key ≠ b.key) :
    t.mergedMachine.At Entry.key id (fun _ => True) (mergeAll Entry.key lists)
      (newMergingIterator t.childMachine children) (mergeAll Entry.key lists).length := by
  have hcompare : Compares (InternalKey.compare (K := K)) id :=
    ⟨InternalKey.compare_eq_lt_iff _ _, InternalKey.compare_eq_eq_iff _ _⟩
  have hstrict' : ∀ es ∈ lists.map (map Entry.kv), Strict (fun e => id e.1) es :=
    List.forall_mem_map.mpr fun es hes => pairwise_map.mpr (hstrict es hes)
  have hapart := (pairwise_flatten.mp hne).2
  have hapart' : (lists.map (map Entry.kv)).Pairwise fun es es' =>
      ∀ x ∈ es, ∀ y ∈ es', id x.1 ≠ id y.1 := by
    refine pairwise_map.mpr (hapart.imp ?_)
    intro es es' hxy
    refine List.forall_mem_map.mpr fun x hx => List.forall_mem_map.mpr ?_
    exact fun y hy => hxy x hx y hy
  -- both merges are sorted and have the same elements
  have hmap : mergeAll (fun e => id e.1) (lists.map (map Entry.kv)) =
      (mergeAll Entry.key lists).map Entry.kv := by
    have hperm := (mergeAll_perm fun es hes => (hstrict es hes).imp le_of_lt).map Entry.kv
    rw [map_flatten] at hperm
    have hperm' := mergeAll_perm fun es hes => (hstrict' es hes).imp le_of_lt
    exact (hperm'.trans hperm.symm).eq_of_pairwise (fun a b _ _ hab hba => absurd hba hab.asymm)
      (mergeAll_lt hstrict' hapart') (pairwise_map.mpr (mergeAll_lt hstrict hapart))
  have hmerged := newMergingIterator_at hcompare (forall₂_map_right_iff.mpr hchildren) hstrict'
    hapart' fun _ _ _ _ => trivial
  rw [hmap, length_map] at hmerged
  have hback : t.mergedMachine.At Entry.key id (fun _ => True)
      (((mergeAll Entry.key lists).map Entry.kv).map Entry.ofKv) _ _ :=
    hmerged.map (fun _ _ => rfl) fun _ _ => ⟨trivial, rfl⟩
  rwa [List.map_map, show Entry.ofKv ∘ Entry.kv = (id : Entry K V → Entry K V) from rfl,
    List.map_id] at hback

/-! ## Database iterators -/

section Read

variable {t : LeafIterators K V D} {mem : MemTable K V} {imm : Option (MemTable K V)}
  {v : Version K} {store : TableStore K V}

/-- Different files have no key in common. -/
theorem Version.Layered.keys_ne (h : v.Layered store) {files : List (FileMetaData K)}
    (hfiles : ∀ f ∈ files, ∃ level, f ∈ v.files level)
    (hnumbers : (files.map FileMetaData.number).Nodup) :
    (files.flatMap fun f => (store f.number).entries).Pairwise fun a b => a.key ≠ b.key := by
  refine pairwise_flatMap.mpr ⟨fun f _ => (store f.number).sorted.imp ne_of_lt, ?_⟩
  refine (pairwise_map.mp hnumbers).imp_of_mem ?_
  intro f g hf hg hne a ha b hb
  obtain ⟨i, hi⟩ := hfiles f hf
  obtain ⟨j, hj⟩ := hfiles g hg
  exact Version.key_ne_of_files h.intact h.levelsSorted h.order hi hj (.inr hne) ha hb

theorem Version.Layered.nodup_numbers (h : v.Layered store) {level : Nat}
    {files : List (FileMetaData K)} (hsub : ∀ f ∈ files, f ∈ v.files level)
    (hnodup : files.Nodup) : (files.map FileMetaData.number).Nodup := by
  refine pairwise_map.mpr (hnodup.imp_of_mem ?_)
  intro f g hf hg hne heq
  exact hne (h.numbers level level f (hsub f hf) g (hsub g hg) heq).2

/-- All memtables and tables are read by their iterators. -/
structure LeafIterators.Serves (t : LeafIterators K V D) (mem : MemTable K V)
    (imm : Option (MemTable K V)) (v : Version K) (store : TableStore K V) : Prop where
  memtables : ∀ m ∈ mem :: imm.toList, t.Reads m (t.ofMemTable m)
  tables : ∀ level, ∀ f ∈ v.files level, t.Opens store f
  turns : ∀ level, (v.files level).length ≤ t.turns

theorem Version.Layered.levelFiles (h : v.Layered store) (hserves : t.Serves mem imm v store)
    (level : Nat) : LevelFiles t store level (v.files level) where
  describes := h.intact level
  sorted := fun hlevel => h.levelsSorted level (Nat.one_le_iff_ne_zero.mpr hlevel)
  numbers := h.nodup_numbers (fun _ hf => hf) (h.canonical level).nodup
  opens := hserves.tables level
  turns := hserves.turns level

theorem internalIterators_iterate (h : v.Layered store) (hserves : t.Serves mem imm v store) :
    t.Iterates ((mem :: imm.toList).map (fun m => .inl (t.ofMemTable m)) ++ t.addIterators v)
      (contents mem imm v store) := by
  unfold contents LeafIterators.addIterators
  refine rel_append (forall₂_map_left_iff.mpr (forall₂_same.mpr ?_)) ?_
  · exact fun m hm => (hserves.memtables m hm).embed (Machine.embeds_inl _ _)
  · induction List.range kNumLevels with
    | nil => exact Forall₂.nil
    | cons level levels ih =>
      exact rel_append (levelIterators_iterate (h.levelFiles hserves level)) ih

theorem mem_contents {e : Entry K V} :
    e ∈ (contents mem imm v store).flatten ↔ e ∈ dbEntries mem imm v store := by
  rw [contents_flatten, mem_append, flatten_cons, mem_append, or_assoc]
  refine or_congr Iff.rfl (or_congr ?_ ?_)
  · cases imm <;> simp
  · rw [mem_flatMap]
    constructor
    · rintro ⟨f, hf, he⟩
      obtain ⟨level, -, hf⟩ := mem_flatMap.mp hf
      exact ⟨level, f, hf, he⟩
    · rintro ⟨level, f, hf, he⟩
      exact ⟨f, mem_flatMap.mpr ⟨level, mem_range.mpr (Version.level_lt hf), hf⟩, he⟩

/-- No two entries of a readable database have the same key. -/
theorem Readable.keys_ne (h : Readable mem imm v store) :
    (contents mem imm v store).flatten.Pairwise fun a b => a.key ≠ b.key := by
  have hseq : ∀ {a b : Entry K V}, b.sequence < a.sequence → a.key ≠ b.key :=
    fun hlt heq => hlt.ne' (congrArg InternalKey.sequence heq)
  have hfiles : ∀ f ∈ (List.range kNumLevels).flatMap v.files, ∃ level, f ∈ v.files level := by
    intro f hf
    obtain ⟨level, -, hf⟩ := mem_flatMap.mp hf
    exact ⟨level, hf⟩
  have htables := h.layered.keys_ne hfiles h.layered.shape.numbers_nodup
  have htable : ∀ {e}, e ∈ ((List.range kNumLevels).flatMap v.files).flatMap
      (fun f => (store f.number).entries) → e ∈ v.entries store := by
    intro e he
    obtain ⟨f, hf, he⟩ := mem_flatMap.mp he
    obtain ⟨level, hf⟩ := hfiles f hf
    exact ⟨level, f, hf, he⟩
  rw [contents_flatten]
  cases imm with
  | none =>
    rw [Option.toList_none, flatten_singleton]
    exact pairwise_append.mpr ⟨h.strict.imp ne_of_lt, htables,
      fun a ha b hb => hseq ((h.memNewer a ha).2 b (htable hb))⟩
  | some m =>
    rw [Option.toList_some, flatten_cons, flatten_singleton, append_assoc]
    have himm : (m ++ _).Pairwise fun a b : Entry K V => a.key ≠ b.key :=
      pairwise_append.mpr ⟨(h.immStrict m rfl).imp ne_of_lt, htables,
        fun a ha b hb => hseq (h.immNewer m rfl a ha b (htable hb))⟩
    refine pairwise_append.mpr ⟨h.strict.imp ne_of_lt, himm, ?_⟩
    intro a ha b hb
    obtain hb | hb := mem_append.mp hb
    · exact hseq ((h.memNewer a ha).1 m rfl b hb)
    · exact hseq ((h.memNewer a ha).2 b (htable hb))

theorem contents_strict (h : Readable mem imm v store) (hserves : t.Serves mem imm v store) :
    ∀ es ∈ contents mem imm v store, Strict Entry.key es := by
  intro es hes
  obtain hes | hes := mem_append.mp hes
  · obtain rfl | hes := mem_cons.mp hes
    · exact h.strict
    · exact h.immStrict es (Option.mem_toList.mp hes)
  · obtain ⟨level, -, hes⟩ := mem_flatMap.mp hes
    exact levelContents_strict (h.layered.levelFiles hserves level) es hes

/-- The merging iterator of `NewIterator` is a cursor over all entries. -/
theorem internalIterator_run (h : Readable mem imm v store) (hserves : t.Serves mem imm v store) :
    ∃ es, (∀ e, e ∈ es ↔ e ∈ dbEntries mem imm v store) ∧ Strict Entry.key es ∧
      ∀ calls, run t.mergedMachine.step t.mergedMachine.observe (t.internalIterator mem imm v)
        calls = run (Cursor.step Entry.key es) (fun c => (c.current, none)) .invalid calls := by
  have hlists := contents_strict h hserves
  have hperm := mergeAll_perm fun es hes => (hlists es hes).imp le_of_lt
  have hstrict : Strict Entry.key (mergeAll Entry.key (contents mem imm v store)) :=
    mergeAll_lt hlists (pairwise_flatten.mp h.keys_ne).2
  have hat := merged_at (internalIterators_iterate h.layered hserves) hlists h.keys_ne
  refine ⟨_, fun e => hperm.mem_iff.trans mem_contents, hstrict, ?_⟩
  intro calls
  have hallowed : ∀ call ∈ calls, Machine.Allows (fun _ => True) call := by
    intro call _
    cases call <;> trivial
  have hrun := hat.run_eq hstrict hallowed
  simp only [Machine.rankCall_id] at hrun
  exact hrun

theorem Readable.mem_visibleMap (h : Readable mem imm v store) {es : List (Entry K V)}
    (hes : ∀ e, e ∈ es ↔ e ∈ dbEntries mem imm v store) (s : Nat) (k : K) (val : V) :
    (k, val) ∈ visibleMap es s ↔ dbGet mem imm v store.cacheGet k s = .ok (some val) := by
  rw [LevelDB.mem_visibleMap, (dbGet_spec h k s).1 val,
    show {e | e ∈ es} = dbEntries mem imm v store from Set.ext hes]

theorem dbIter_run [KeyBytes K] [Inhabited V] (h : Readable mem imm v store)
    {es : List (Entry K V)} (hes : ∀ e, e ∈ es ↔ e ∈ dbEntries mem imm v store)
    (hstrict : Strict Entry.key es) (s : Nat) (calls : List (Cursor.Call K)) :
    run (DBIter.step es s) DBIter.current DBIter.init calls =
      run (Cursor.step Prod.fst (visibleMap es s)) Cursor.current .invalid calls :=
  Cursor.run_eq_of_simulation (DBIter.Sim es s) (fun _ _ hsim => hsim.current_eq)
    (fun _ _ hsim call => DBIter.step_sim hstrict
      (fun e he => h.wellFormed e ((hes e).mp he)) hsim call) (.invalid rfl) calls

/-- **Database iterators and `Get`.** The merging iterator of `NewIterator` is, along every run of
    calls, a cursor over all entries of the memtables and the version. A `DBIter` on that cursor, at
    any sequence number, is a cursor over the sorted map of the values that `Get` answers there. -/
theorem newIterator_agrees_with_get [KeyBytes K] [Inhabited V] (h : Readable mem imm v store)
    (hserves : t.Serves mem imm v store) :
    ∃ es, (∀ e, e ∈ es ↔ e ∈ dbEntries mem imm v store) ∧
      (∀ calls, run t.mergedMachine.step t.mergedMachine.observe (t.internalIterator mem imm v)
        calls = run (Cursor.step Entry.key es) (fun c => (c.current, none)) .invalid calls) ∧
      ∀ s, Strict Prod.fst (visibleMap es s) ∧
        (∀ k val, (k, val) ∈ visibleMap es s ↔
          dbGet mem imm v store.cacheGet k s = .ok (some val)) ∧
        ∀ calls, run (DBIter.step es s) DBIter.current DBIter.init calls =
          run (Cursor.step Prod.fst (visibleMap es s)) Cursor.current .invalid calls := by
  obtain ⟨es, hes, hstrict, hrun⟩ := internalIterator_run h hserves
  exact ⟨es, hes, hrun, fun s => ⟨visibleMap_strict hstrict, h.mem_visibleMap hes s,
    dbIter_run h hes hstrict s⟩⟩

/-- **Iterators and acknowledged writes.** In every run of writes, memtable switches, flushes,
    crashes and reopens, an iterator of an open database is a cursor over the sorted map that the
    acknowledged operations build. -/
theorem newIterator_durable [KeyBytes K] [Inhabited K] [Inhabited V] {cfg : Config K V}
    {events : List (Event K V)} {db : Db K V}
    (hrun : Run cfg (fun _ => False) events (.opened db))
    (hserves : t.Serves db.mem db.imm db.versions.current db.disk.store) :
    ∃ hist inFlight es, Spec.Run events ⟨hist, inFlight⟩ ∧
      (∀ calls, run t.mergedMachine.step t.mergedMachine.observe
          (t.internalIterator db.mem db.imm db.versions.current) calls =
        run (Cursor.step Entry.key es) (fun c => (c.current, none)) .invalid calls) ∧
      Strict Prod.fst (visibleMap es db.versions.lastSequence) ∧
      (∀ k val, (k, val) ∈ visibleMap es db.versions.lastSequence ↔ applyOps hist k = some val) ∧
      ∀ calls, run (DBIter.step es db.versions.lastSequence) DBIter.current DBIter.init calls =
        run (Cursor.step Prod.fst (visibleMap es db.versions.lastSequence)) Cursor.current .invalid
          calls := by
  obtain ⟨⟨hist, inFlight⟩, hspec, -, m, file, A, P, c, mid, hs⟩ :=
    run_simulates True (fun _ hr => hr.elim) hrun
  obtain ⟨es, hes, hstrict, hcalls⟩ := internalIterator_run hs.readable hserves
  refine ⟨hist, inFlight, es, hspec, hcalls, visibleMap_strict hstrict, ?_,
    dbIter_run hs.readable hes hstrict _⟩
  intro k val
  have hreports := hs.serves.get k
  rw [hs.readable.mem_visibleMap hes]
  unfold Db.get at hreports
  cases happly : applyOps hist k with
  | some x =>
    rw [happly] at hreports
    rw [show dbGet _ _ _ _ _ _ = _ from hreports]
    simp
  | none =>
    rw [happly] at hreports
    obtain ⟨st, hst, -⟩ := hreports
    rw [hst]
    simp

end Read

open Version (straddling straddlingStore)

/-- Memtables and tables as lists. -/
def listLeaves (store : TableStore K V) (turns : Nat) :
    LeafIterators K V (List (InternalKey K × V) × Cursor (InternalKey K × V)) where
  machine := .ofList Prod.fst id
  ofMemTable m := (m.map Entry.kv, .invalid)
  ofTable number _ := ((store number).entries.map Entry.kv, .invalid)
  ofError _ := ([], .invalid)
  turns := turns

theorem listLeaves_reads (store : TableStore K V) (turns : Nat) (es : List (Entry K V)) :
    (listLeaves store turns).Reads es (es.map Entry.kv, .invalid) :=
  ⟨_, Machine.ofList_faithful _ _ _ _, congrArg (es.map Entry.kv, ·) (nth_of_le (le_refl _)).symm⟩

theorem listLeaves_serves {mem : MemTable K V} {imm : Option (MemTable K V)} {v : Version K}
    {store : TableStore K V} {turns : Nat} (h : ∀ level < kNumLevels,
      (v.files level).length ≤ turns ∧ ∀ f ∈ v.files level, f.number < 2 ^ 64 ∧ f.fileSize < 2 ^ 64) :
    (listLeaves store turns).Serves mem imm v store := by
  refine ⟨fun m _ => listLeaves_reads _ _ m, fun level f hf => ?_, fun level => ?_⟩
  · obtain ⟨hnumber, hsize⟩ := (h level (Version.level_lt hf)).2 f hf
    exact ⟨hnumber, hsize, listLeaves_reads _ _ _⟩
  · by_cases hlevel : level < kNumLevels
    · exact (h level hlevel).1
    · rw [v.files_eq_nil level (not_lt.mp hlevel)]
      exact Nat.zero_le _

theorem straddling_layered : straddling.Layered straddlingStore where
  intact := Version.straddling_intact
  apart l hl f hf g hg := (by decide : ∀ l < 7, 1 ≤ l → ∀ f ∈ straddling.files l,
    ∀ g ∈ straddling.files l, f ≠ g → f.largest < g.smallest ∨ g.largest < f.smallest)
    l (Version.level_lt hf) hl f hf g hg
  order := Version.straddling_levelOrder
  numbers i j f hf g hg := (by decide : ∀ i < 7, ∀ j < 7, ∀ f ∈ straddling.files i,
    ∀ g ∈ straddling.files j, f.number = g.number → i = j ∧ f = g)
    i (Version.level_lt hf) j (Version.level_lt hg) f hf g hg
  canonical
    | 0 => pairwise_singleton _ _
    | 1 => by unfold BySmallest; decide
    | _ + 2 => List.Pairwise.nil

theorem straddling_serves :
    (listLeaves straddlingStore 3).Serves [] none straddling straddlingStore :=
  listLeaves_serves (by decide)

theorem newIterator_agrees_with_get_straddling :
    ∃ es, ∀ s k val, (k, val) ∈ visibleMap es s ↔
      dbGet [] none straddling straddlingStore.cacheGet k s = .ok (some val) := by
  have hall : dbEntries [] none straddling straddlingStore = straddling.entries straddlingStore := by
    ext e
    simp [dbEntries]
  have hread : Readable [] none straddling straddlingStore := by
    refine ⟨.nil, fun _ hm => (nomatch hm), ?_, straddling_layered, ?_, fun _ hx => (nomatch hx),
      fun _ hm => (nomatch hm)⟩
    · exact hall ▸ straddling.entries_wellFormed straddlingStore
    · exact hall ▸ Version.entries_inj Version.straddling_intact Version.straddling_levelsSorted
        Version.straddling_levelOrder
  obtain ⟨es, -, -, hget⟩ := newIterator_agrees_with_get hread straddling_serves
  exact ⟨es, fun s k val => (hget s).2.1 k val⟩

theorem newIterator_durable_sample :
    ∃ hist inFlight es, Spec.Run sampleEvents ⟨hist, inFlight⟩ ∧ ∀ k val,
      (k, val) ∈ visibleMap es sampleFlushed.versions.lastSequence ↔ applyOps hist k = some val := by
  have hserves : (listLeaves sampleFlushed.disk.store 1).Serves sampleFlushed.mem sampleFlushed.imm
      sampleFlushed.versions.current sampleFlushed.disk.store := listLeaves_serves (by decide +kernel)
  obtain ⟨hist, inFlight, es, hspec, -, -, hmap, -⟩ :=
    newIterator_durable (sampleFlushed_run _) hserves
  exact ⟨hist, inFlight, es, hspec, hmap⟩

/-! ## Inputs of compactions -/

section Input

variable {t : LeafIterators K V D} {v : Version K} {store : TableStore K V} {c : Compaction K}
  {faults : Nat → TableFault}

/-- Without errors the lists are those of a forward pass. -/
theorem levelScans_entries {level : Nat} {files : List (FileMetaData K)}
    (h : ∀ f ∈ files, ((store f.number).scan (faults f.number)).status = none) :
    (levelScans level (files.map fun f => (store f.number).scan (faults f.number))).map
      Scan.entries = levelContents store level files := by
  have hscan : ∀ f ∈ files, ((store f.number).scan (faults f.number)).entries =
      (store f.number).entries := fun f hf => Table.scan_entries_of_status (h f hf)
  unfold levelScans levelContents
  rw [isEmpty_map]
  split_ifs
  · rw [List.map_map]
    exact map_congr_left hscan
  · rfl
  · rw [map_singleton, twoLevelScan, flatMap_map]
    exact congrArg ([·]) (flatMap_congr hscan)

theorem makeInputIterator_entries (h : (makeInputIterator store faults c).status = none) :
    (makeInputIterator store faults c).entries = mergeAll Entry.key
      (levelContents store c.level c.inputs0 ++ levelContents store (c.level + 1) c.inputs1) := by
  have hstatus := makeInputIterator_status_eq_none.mp h
  unfold makeInputIterator mergingScan
  dsimp only
  rw [map_append, levelScans_entries fun f hf => hstatus f (mem_append_left _ hf),
    levelScans_entries fun f hf => hstatus f (mem_append_right _ hf)]

/-- **The input of a compaction.** When the tables are read as stored, a scan of the iterator of
    `MakeInputIterator` yields the entries of the inputs in the order of their keys, as
    `makeInputIterator` says, and ends without an error. -/
theorem inputIterator_scan (h : v.Layered store) (hc : Closed v c)
    (hopens : ∀ f ∈ c.inputs0 ++ c.inputs1, t.Opens store f)
    (hturns : (c.inputs0 ++ c.inputs1).length ≤ t.turns)
    (hstatus : (makeInputIterator store faults c).status = none) {fuel : Nat}
    (hfuel : (makeInputIterator store faults c).entries.length < fuel) :
    (t.mergedMachine.scan fuel (t.mergedMachine.seekToFirst (t.inputIterator c))).1 =
        (makeInputIterator store faults c).entries ∧
      t.mergedMachine.error
        (t.mergedMachine.scan fuel (t.mergedMachine.seekToFirst (t.inputIterator c))).2 = none := by
  have hnodup : c.inputs1.Nodup := by
    refine hc.sorted1.imp_of_mem ?_
    rintro f _ hf - hlt rfl
    exact absurd (h.ranged _ f (hc.sub1 f hf)) (not_le.mpr hlt)
  rw [length_append] at hturns
  have hlevel0 : LevelFiles t store c.level c.inputs0 :=
    ⟨fun f hf => h.intact _ f (hc.sub0 f hf), fun hl => hc.sorted0 (Nat.pos_of_ne_zero hl),
      h.nodup_numbers hc.sub0 (hc.nodup0 (h.canonical _).nodup),
      fun f hf => hopens f (mem_append_left _ hf), by omega⟩
  have hlevel1 : LevelFiles t store (c.level + 1) c.inputs1 :=
    ⟨fun f hf => h.intact _ f (hc.sub1 f hf), fun _ => hc.sorted1, h.nodup_numbers hc.sub1 hnodup,
      fun f hf => hopens f (mem_append_right _ hf), by omega⟩
  have hlists := forall_mem_append.mpr
    ⟨levelContents_strict hlevel0, levelContents_strict hlevel1⟩
  have hstrict := h.makeInputIterator_strict hc faults
  rw [makeInputIterator_entries hstatus] at hstrict hfuel ⊢
  have hne := ((mergeAll_perm fun es hes => (hlists es hes).imp le_of_lt).pairwise_iff
    fun hab => hab.symm).mp (hstrict.imp ne_of_lt)
  exact (merged_at (rel_append (levelIterators_iterate hlevel0) (levelIterators_iterate hlevel1))
    hlists hne).scan_eq hfuel

end Input

theorem inputIterator_scan_straddling :
    ((listLeaves straddlingStore 3).mergedMachine.scan 6
      ((listLeaves straddlingStore 3).mergedMachine.seekToFirst
        ((listLeaves straddlingStore 3).inputIterator straddlingCompaction))).1 =
      (makeInputIterator straddlingStore (fun _ => {}) straddlingCompaction).entries := by
  have hclosed := straddlingCompaction_picked.closed Version.straddling_levelsSorted
    straddling_layered.ranged
  refine (inputIterator_scan straddling_layered hclosed ?_ (by decide) rfl (by decide)).1
  intro f hf
  obtain hf | hf := mem_append.mp hf
  · exact straddling_serves.tables _ f (hclosed.sub0 f hf)
  · exact straddling_serves.tables _ f (hclosed.sub1 f hf)

end LevelDB
