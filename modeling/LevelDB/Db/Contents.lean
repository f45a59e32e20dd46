/-
  Tables that hold a history.

  The operations of a database are numbered from 1 on. `Holds full v store H` says that the
  tables of the version `v` hold nothing but operations of the history `H`, and all of them
  if `full`, in a version that is `Layered`. A memtable is made of a run of operations
  (`memOf`), and writing it out adds that run.
-/
import LevelDB.Db.MemTable
import LevelDB.Db.VersionSet

namespace LevelDB

open List SortedList

variable {K V : Type} [LinearOrder K] [Inhabited V]

/-! ## Memtables of operations -/

/-- The memtable of operations numbered from `n` on. -/
def memOf (n : Nat) (ops : List (Op K V)) : MemTable K V := MemTable.addAll [] (entriesFrom n ops)

theorem mem_memOf {n : Nat} {ops : List (Op K V)} {e : Entry K V} :
    e ∈ memOf n ops ↔ e ∈ entriesFrom n ops := by
  unfold memOf
  rw [MemTable.mem_addAll]
  simp

omit [LinearOrder K] in
theorem entriesFrom_pairwise (n : Nat) (ops : List (Op K V)) :
    (entriesFrom n ops).Pairwise fun a b => a.sequence ≠ b.sequence := by
  induction ops generalizing n with
  | nil => exact List.Pairwise.nil
  | cons op ops ih =>
    refine pairwise_cons.mpr ⟨?_, ih (n + 1)⟩
    intro e he
    have := (entriesFrom_sequence he).1
    rw [Op.entry_sequence]
    omega

theorem memOf_strict (n : Nat) (ops : List (Op K V)) : Strict Entry.key (memOf n ops) :=
  MemTable.addAll_strict List.Pairwise.nil (entriesFrom_pairwise n ops)
    fun _ hx => absurd hx not_mem_nil

theorem memOf_wellFormed {n : Nat} {ops : List (Op K V)} : ∀ e ∈ memOf n ops, e.key.WellFormed :=
  fun e he => entriesFrom_wellFormed e (mem_memOf.mp he)

theorem memOf_append (n : Nat) (a b : List (Op K V)) :
    memOf n (a ++ b) = (memOf n a).addAll (entriesFrom (n + a.length) b) := by
  unfold memOf
  rw [entriesFrom_append, MemTable.addAll_append]

theorem memOf_eq_nil_iff {n : Nat} {ops : List (Op K V)} : memOf n ops = [] ↔ ops = [] := by
  constructor
  · intro h
    cases ops with
    | nil => rfl
    | cons op ops =>
      have hmem : op.entry n ∈ memOf n (op :: ops) := mem_memOf.mpr mem_cons_self
      rw [h] at hmem
      exact absurd hmem not_mem_nil
  · intro h
    rw [h]
    rfl

/-- Batches that follow one another from sequence number `n` on. -/
def Numbered : Nat → List (WriteBatch K V) → Prop
  | _, [] => True
  | n, b :: rest => b.sequence = n ∧ Numbered (n + b.ops.length) rest

omit [LinearOrder K] [Inhabited V] in
theorem numbered_append {n : Nat} {a b : List (WriteBatch K V)} :
    Numbered n (a ++ b) ↔
      Numbered n a ∧ Numbered (n + (a.flatMap WriteBatch.ops).length) b := by
  induction a generalizing n with
  | nil => simp [Numbered]
  | cons x a ih =>
    rw [cons_append, Numbered, ih, Numbered, flatMap_cons, length_append,
      Nat.add_assoc, and_assoc]

theorem foldl_addAll_memOf {n : Nat} (ops : List (Op K V)) {records : List (WriteBatch K V)}
    (h : Numbered (n + ops.length) records) :
    records.foldl (fun mem b => mem.addAll b.entries) (memOf n ops) =
      memOf n (ops ++ records.flatMap WriteBatch.ops) := by
  induction records generalizing ops with
  | nil => simp
  | cons b records ih =>
    obtain ⟨hb, hrest⟩ := h
    have hstep : (memOf n ops).addAll b.entries = memOf n (ops ++ b.ops) := by
      rw [memOf_append, WriteBatch.entries, hb]
    rw [foldl_cons, hstep, flatMap_cons, ← append_assoc]
    apply ih
    rw [length_append, ← Nat.add_assoc]
    exact hrest

/-- `BuildTable`: the metadata of the table, with size 0 for an empty memtable. -/
def buildTable [Inhabited K] (cfg : Config K V) (number : Nat) (mem : MemTable K V) :
    FileMetaData K where
  number := number
  fileSize := if mem.isEmpty then 0 else cfg.fileSize mem
  smallest := (mem.head?.map Entry.key).getD .cleared
  largest := (mem.getLast?.map Entry.key).getD .cleared

section Build

variable [Inhabited K] {cfg : Config K V} {number n : Nat} {ops : List (Op K V)}

omit [Inhabited K] in
theorem writeTable_memOf (cfg : Config K V) (n : Nat) (ops : List (Op K V)) :
    (cfg.writeTable (memOf n ops)).entries = memOf n ops :=
  cfg.writeTable_entries _ (memOf_strict n ops) memOf_wellFormed

theorem buildTable_fileSize_pos (hne : ops ≠ []) :
    0 < (buildTable cfg number (memOf n ops)).fileSize := by
  unfold buildTable
  dsimp only
  rw [if_neg]
  · exact cfg.fileSize_pos _
  · rw [List.isEmpty_iff, memOf_eq_nil_iff]
    exact hne

theorem describes_buildTable (hne : ops ≠ []) :
    Version.Describes (buildTable cfg number (memOf n ops)) (cfg.writeTable (memOf n ops)) := by
  apply Version.describes_of_ends
  · rw [writeTable_memOf]
    exact fun h => hne (memOf_eq_nil_iff.mp h)
  · rw [writeTable_memOf]
    rfl
  · rw [writeTable_memOf]
    rfl

end Build

/-! ## Versions that hold a history -/

omit [Inhabited V] in
theorem Version.entries_congr {v : Version K} {store store' : TableStore K V}
    (hstore : ∀ level, ∀ f ∈ v.files level, store' f.number = store f.number) :
    v.entries store' = v.entries store := by
  ext e
  constructor
  · intro ⟨level, f, hf, he⟩
    rw [hstore level f hf] at he
    exact ⟨level, f, hf, he⟩
  · intro ⟨level, f, hf, he⟩
    rw [← hstore level f hf] at he
    exact ⟨level, f, hf, he⟩

/-- The tables of the version hold operations of `H` only, and all of them if `full`. -/
structure Holds (full : Prop) (v : Version K) (store : TableStore K V) (H : List (Op K V)) :
    Prop where
  layered : v.Layered store
  sub : v.entries store ⊆ history H
  all : full → history H ⊆ v.entries store

namespace Holds

variable {full : Prop} {v v' : Version K} {store store' : TableStore K V} {H ops : List (Op K V)}

theorem empty (store : TableStore K V) : Holds full Version.empty store [] where
  layered := Version.empty_layered store
  sub := by
    intro e he
    obtain ⟨level, f, hf, -⟩ := he
    exact absurd hf not_mem_nil
  all := fun _ e he => absurd he not_mem_nil

section

variable (h : Holds full v store H)
include h

theorem sequence_bounds {e : Entry K V} (he : e ∈ v.entries store) :
    1 ≤ e.sequence ∧ e.sequence ≤ H.length := by
  have := entriesFrom_sequence (h.sub he)
  omega

theorem congr (hstore : ∀ level, ∀ f ∈ v.files level, store' f.number = store f.number) :
    Holds full v store' H := by
  have hentries := Version.entries_congr hstore
  refine ⟨⟨?_, h.layered.apart, ⟨?_, ?_⟩, h.layered.numbers, h.layered.canonical⟩, ?_, ?_⟩
  · intro level f hf
    rw [hstore level f hf]
    exact h.layered.intact level f hf
  · intro i j hij f hf g hg
    rw [hstore i f hf, hstore j g hg]
    exact h.layered.order.levels i j hij f hf g hg
  · intro f hf g hg
    rw [hstore 0 f hf, hstore 0 g hg]
    exact h.layered.order.levelZero f hf g hg
  · rw [hentries]
    exact h.sub
  · rw [hentries]
    exact h.all

theorem add {level : Nat} {f : FileMetaData K} {t : Table K V}
    (hmem : ∀ l g, g ∈ v'.files l ↔ g ∈ v.files l ∨ l = level ∧ g = f)
    (hcanon : v'.Canonical) (hnum : ∀ l, ∀ g ∈ v.files l, g.number < f.number)
    (hdesc : Version.Describes f t) (ht : t.entries = memOf (H.length + 1) ops)
    (hfree : 0 < level → ∀ l ≤ level, ∀ g ∈ v.files l,
      g.largest.userKey < f.smallest.userKey ∨ f.largest.userKey < g.smallest.userKey) :
    Holds full v' (Function.update store f.number t) (H ++ ops) := by
  have hte : ∀ e, e ∈ t.entries ↔ e ∈ entriesFrom (H.length + 1) ops := by
    intro e
    rw [ht, mem_memOf]
  refine ⟨h.layered.add hmem hcanon hnum hdesc ?_ hfree, ?_, ?_⟩
  · intro x hx y hy _
    have hxs := (entriesFrom_sequence ((hte x).mp hx)).1
    have hys := (h.sequence_bounds hy).2
    omega
  · intro e he
    rw [mem_history_append]
    obtain he | he := (Version.Layered.mem_entries_add hmem hnum).mp he
    · exact Or.inl (h.sub he)
    · exact Or.inr ((hte e).mp he)
  · intro hfull e he
    apply (Version.Layered.mem_entries_add hmem hnum).mpr
    obtain he | he := mem_history_append.mp he
    · exact Or.inl (h.all hfull he)
    · exact Or.inr ((hte e).mpr he)

theorem oneEntryPerSequence :
    Version.Layered.OneEntryPerSequence (v.entries store) := by
  intro a ha b hb _ hs
  rw [entriesFrom_unique (h.sub ha) (h.sub hb) hs]

theorem wellFormed {e : Entry K V} (he : e ∈ v.entries store) :
    e.key.WellFormed := entriesFrom_wellFormed e (h.sub he)

theorem largest_tag_le (hlen : H.length ≤ kMaxSequenceNumber)
    {level : Nat} {f : FileMetaData K} (hf : f ∈ v.files level) : f.largest.tag ≤ maxTag := by
  obtain ⟨e, he, hek⟩ := (h.layered.intact level f hf).largest_mem
  have hmem : e ∈ v.entries store := ⟨level, f, hf, he⟩
  rw [← hek]
  exact (tag_le_lookup_iff (h.wellFormed hmem) _).mpr ((h.sequence_bounds hmem).2.trans hlen)

end

theorem keys_ne_cleared [Inhabited K] (h : Holds full v store H) {level : Nat}
    {f : FileMetaData K} (hf : f ∈ v.files level) :
    f.smallest ≠ .cleared ∧ f.largest ≠ .cleared := by
  have hkey : ∀ e ∈ (store f.number).entries, e.key ≠ .cleared := by
    intro e he heq
    have hseq := (h.sequence_bounds ⟨level, f, hf, he⟩).1
    unfold Entry.sequence at hseq
    rw [heq, InternalKey.sequence_eq] at hseq
    simp [InternalKey.cleared] at hseq
  obtain ⟨a, ha, hak⟩ := (h.layered.intact level f hf).smallest_mem
  obtain ⟨b, hb, hbk⟩ := (h.layered.intact level f hf).largest_mem
  exact ⟨by rw [← hak]; exact hkey a ha, by rw [← hbk]; exact hkey b hb⟩

/-! ## Flushes and compactions -/

end Holds

def flushEdit (cfg : Config K V) (v : Version K) (f : FileMetaData K) (logNumber : Nat) :
    VersionEdit K :=
  { VersionEdit.addFile {} (v.pickLevelForMemTableOutput cfg.maxFileSize f.smallest.userKey
      f.largest.userKey) f with logNumber := some logNumber }

section Flush

variable {v : Version K} {f : FileMetaData K}

omit [Inhabited V] in
theorem applyEdit_flushEdit (cfg : Config K V) (logNumber : Nat) :
    v.applyEdit (flushEdit cfg v f logNumber) =
      v.applyEdit (VersionEdit.addFile {} (v.pickLevelForMemTableOutput cfg.maxFileSize
        f.smallest.userKey f.largest.userKey) f) := Version.applyEdit_congr rfl rfl

omit [LinearOrder K] in
theorem fresh_addFile (hnum : ∀ l, ∀ g ∈ v.files l, g.number < f.number) (level : Nat) :
    v.Fresh (VersionEdit.addFile {} level f) := by
  refine Version.fresh_of_numbers (nodup_singleton _) ?_
  intro p hp l g hg
  rw [mem_singleton.mp hp]
  exact hnum l g hg

omit [Inhabited V] in
theorem mem_flushEdit (cfg : Config K V) (logNumber : Nat)
    (hnum : ∀ l, ∀ g ∈ v.files l, g.number < f.number) (l : Nat) (g : FileMetaData K) :
    g ∈ (v.applyEdit (flushEdit cfg v f logNumber)).files l ↔ g ∈ v.files l ∨
      l = v.pickLevelForMemTableOutput cfg.maxFileSize f.smallest.userKey f.largest.userKey ∧
        g = f := by
  have hlevel := (v.pickLevelForMemTableOutput_le cfg.maxFileSize f.smallest.userKey
    f.largest.userKey).trans_lt (show kMaxMemCompactLevel < kNumLevels by decide)
  rw [applyEdit_flushEdit, Version.mem_applyEdit_addFile hlevel (fresh_addFile hnum _),
    Version.mem_applyEdit_of_nil rfl rfl]

omit [Inhabited V] in
theorem flushEdit_canonical (cfg : Config K V) (logNumber : Nat) (hcanon : v.Canonical)
    (hnum : ∀ l, ∀ g ∈ v.files l, g.number < f.number) :
    (v.applyEdit (flushEdit cfg v f logNumber)).Canonical := by
  rw [applyEdit_flushEdit]
  exact Version.applyEdit_canonical hcanon (fresh_addFile hnum _)

end Flush

namespace Holds

variable {full : Prop} {v : Version K} {store : TableStore K V} {H ops : List (Op K V)}

section

variable [Inhabited K] (h : Holds full v store H)
include h

theorem flush (hlen : H.length ≤ kMaxSequenceNumber)
    (cfg : Config K V) {number : Nat} (logNumber : Nat)
    (hnum : ∀ l, ∀ g ∈ v.files l, g.number < number) (hne : ops ≠ []) :
    Holds full
      (v.applyEdit (flushEdit cfg v (buildTable cfg number (memOf (H.length + 1) ops)) logNumber))
      (Function.update store number (cfg.writeTable (memOf (H.length + 1) ops))) (H ++ ops) := by
  generalize hf : buildTable cfg number (memOf (H.length + 1) ops) = f
  have hfn : f.number = number := by rw [← hf]; rfl
  rw [← hfn] at hnum ⊢
  have hfree := Version.pickLevelForMemTableOutput_spec h.layered.levelsSorted
    h.layered.ranged (fun level g hg => h.largest_tag_le hlen hg) cfg.maxFileSize
    (b := f.smallest.userKey) (e := f.largest.userKey)
  refine h.add (mem_flushEdit cfg logNumber hnum)
    (flushEdit_canonical cfg logNumber h.layered.canonical hnum) hnum ?_
    (writeTable_memOf cfg _ ops) hfree
  rw [← hf]
  exact describes_buildTable hne

theorem move {c : Compaction K} (hc : Picked v c)
    {f : FileMetaData K} (h0 : c.inputs0 = [f]) (h1 : c.inputs1 = []) :
    Holds full (v.applyEdit c.moveEdit) store H := by
  have hclosed := hc.closed h.layered.levelsSorted h.layered.ranged
  have hrep := Version.Layered.move_replaces h.layered hclosed hc.level_lt h0 h1
  have hentries := Version.Layered.move_entries h.layered hclosed hc.level_lt h0 h1
  refine ⟨h.layered.replace hclosed h.oneEntryPerSequence hrep, ?_, ?_⟩
  · rw [hentries]
    exact h.sub
  · rw [hentries]
    exact h.all

theorem compact (hfull : ¬ full) {c : Compaction K}
    (hc : Picked v c) {snap number : Nat} {env : CompactionEnv}
    (hnum : ∀ level, ∀ f ∈ v.files level, f.number ≠ number)
    {r : Option (FileMetaData K × List (Entry K V))}
    (hwork : doCompactionWork v store c snap number env = .ok r) (hne : ∀ p ∈ r, p.2 ≠ [])
    {t : Table K V} (ht : ∀ p ∈ r, t.entries = p.2) :
    Holds full (v.applyEdit (compactionEdit c (r.map Prod.fst)))
      (Function.update store number t) H := by
  have hclosed := hc.closed h.layered.levelsSorted h.layered.ranged
  have hrep := Version.Layered.compaction_replaces h.layered hclosed hc.level_lt hnum hwork hne ht
  exact ⟨h.layered.replace hclosed h.oneEntryPerSequence hrep,
    (hrep.entries_sub hclosed).trans h.sub, fun hf => absurd hf hfull⟩

end

end Holds

/-! ## Reading a history -/

/-- What a read returns for a key with the value `o`. -/
def Reports (r : Except Status (Option V)) : Option V → Prop
  | some v => r = .ok (some v)
  | none => ∃ st, r = .error st ∧ st.isNotFound = true

omit [Inhabited V] in
theorem Readable.dbGet_reports {mem : MemTable K V} {imm : Option (MemTable K V)} {v : Version K}
    {store : TableStore K V} (h : Readable mem imm v store) {k : K} {s : Nat} {o : Option V}
    (ho : ∀ val, Entry.Visible (dbEntries mem imm v store) k s val ↔ o = some val) :
    Reports (dbGet mem imm v store.cacheGet k s) o := by
  have hvis : ∀ val, dbGet mem imm v store.cacheGet k s = .ok (some val) ↔ o = some val :=
    fun val => ((dbGet_spec h k s).1 val).trans (ho val)
  cases o with
  | some val => exact (hvis val).mpr rfl
  | none =>
    refine (dbGet_of_probe k s).2 ?_
    intro e he
    have hans := dbProbe_answers h k s
    rw [he] at hans
    obtain hput | hdel := Entry.isPut_or_isDeletion (h.wellFormed e hans.1)
    · have := (hvis _).mp ((dbGet_of_probe k s).1 e he _ hput)
      cases this
    · exact hdel

/-- Over the operations `H`, of which the tables hold the entries `S`: `a` is in the tables too,
    `b` in the immutable memtable, and `c` in the memtable. -/
structure Layers (S : Set (Entry K V)) (H : List (Op K V)) (mem : MemTable K V)
    (imm : Option (MemTable K V)) (v : Version K) (store : TableStore K V)
    (a b c : List (Op K V)) : Prop where
  base : S ⊆ history H
  holds : Holds False v store (H ++ a)
  entries : ∀ e, e ∈ v.entries store ↔ e ∈ S ∨ e ∈ entriesFrom (H.length + 1) a
  imm : (imm = none ∧ b = []) ∨ imm = some (memOf (H.length + 1 + a.length) b)
  mem : mem = memOf (H.length + 1 + a.length + b.length) c

namespace Layers

variable {S : Set (Entry K V)} {H : List (Op K V)} {mem : MemTable K V}
  {imm : Option (MemTable K V)} {v : Version K} {store : TableStore K V} {a b c : List (Op K V)}

section

variable (h : Layers S H mem imm v store a b c)
include h

theorem mem_imm {e : Entry K V} :
    (∃ m ∈ imm, e ∈ m) ↔ e ∈ entriesFrom (H.length + 1 + a.length) b := by
  obtain ⟨rfl, rfl⟩ | himm := h.imm
  · simp [entriesFrom]
  · rw [himm]
    simp [mem_memOf]

theorem mem_dbEntries {e : Entry K V} :
    e ∈ dbEntries mem imm v store ↔ e ∈ S ∨ e ∈ entriesFrom (H.length + 1) (a ++ b ++ c) := by
  show e ∈ mem ∨ (∃ m ∈ imm, e ∈ m) ∨ e ∈ v.entries store ↔ _
  rw [h.mem_imm, h.entries, h.mem, mem_memOf, entriesFrom_append, entriesFrom_append,
    mem_append, mem_append, length_append, Nat.add_assoc _ a.length]
  tauto

theorem dbEntries_sub :
    dbEntries mem imm v store ⊆ history (H ++ (a ++ b ++ c)) := by
  intro e he
  rw [mem_history_append]
  exact (h.mem_dbEntries.mp he).imp_left fun hS => h.base hS

theorem exists_sorted :
    ∃ es, Strict Entry.key es ∧ ∀ e, e ∈ es ↔ e ∈ dbEntries mem imm v store := by
  classical
  refine ⟨(memOf 1 (H ++ (a ++ b ++ c))).filter fun e => decide (e ∈ dbEntries mem imm v store),
    (memOf_strict _ _).filter _, ?_⟩
  intro e
  rw [mem_filter, mem_memOf, decide_eq_true_eq]
  exact ⟨And.right, fun he => ⟨h.dbEntries_sub he, he⟩⟩

theorem readable : Readable mem imm v store := by
  have hmemseq : ∀ x ∈ mem, H.length + 1 + a.length + b.length ≤ x.sequence := by
    intro x hx
    rw [h.mem, mem_memOf] at hx
    exact (entriesFrom_sequence hx).1
  have himmseq : ∀ m ∈ imm, ∀ x ∈ m, H.length + 1 + a.length ≤ x.sequence ∧
      x.sequence < H.length + 1 + a.length + b.length :=
    fun m hm x hx => entriesFrom_sequence (h.mem_imm.mp ⟨m, hm, hx⟩)
  have hvseq : ∀ y ∈ v.entries store, y.sequence < H.length + 1 + a.length := by
    intro y hy
    have := (h.holds.sequence_bounds hy).2
    rw [length_append] at this
    omega
  refine ⟨?_, ?_, ?_, h.holds.layered, ?_, ?_, ?_⟩
  · rw [h.mem]
    exact memOf_strict _ _
  · grind [h.imm, Option.some.inj, memOf_strict]
  · exact fun e he => entriesFrom_wellFormed e (h.dbEntries_sub he)
  · intro x hx y hy _ ht
    refine entriesFrom_unique (h.dbEntries_sub hx) (h.dbEntries_sub hy) ?_
    exact le_antisymm (Entry.sequence_le_of_tag_le ht.le) (Entry.sequence_le_of_tag_le ht.ge)
  · grind
  · intro m hm x hx y hy
    have := himmseq m hm x hx
    have := hvseq y hy
    omega

end

theorem of_take {full : Prop} {base mid : Nat} (hholds : Holds full v store (H.take base))
    (hbase : base ≤ mid) (hmid : mid ≤ H.length) (hmem : mem = memOf (mid + 1) (H.drop mid))
    (himm : (imm = none ∧ base = mid) ∨ imm = some (memOf (base + 1) ((H.take mid).drop base))) :
    Layers (v.entries store) (H.take base) mem imm v store [] ((H.take mid).drop base)
      (H.drop mid) := by
  have hlen : (H.take base).length = base := length_take_of_le (hbase.trans hmid)
  have hlen' : ((H.take mid).drop base).length = mid - base := by
    rw [length_drop, length_take_of_le hmid]
  refine ⟨hholds.sub, ?_, ?_, ?_, ?_⟩
  · rw [append_nil]
    exact ⟨hholds.layered, hholds.sub, fun hf => hf.elim⟩
  · intro e
    simp only [entriesFrom, not_mem_nil, or_false]
  · obtain ⟨himm, heq⟩ | himm := himm
    · refine Or.inl ⟨himm, eq_nil_of_length_eq_zero ?_⟩
      omega
    · right
      rw [himm, hlen]
      rfl
  · rw [hmem, hlen, hlen']
    congr 1
    rw [length_nil]
    omega

end Layers

/-- The tables hold the operations up to `base`, the immutable memtable those up to `mid`, and
    the memtable the rest. -/
structure Split (mem : MemTable K V) (imm : Option (MemTable K V)) (v : Version K)
    (store : TableStore K V) (H : List (Op K V)) (base mid : Nat) : Prop where
  holds : Holds True v store (H.take base)
  base_le : base ≤ mid
  mid_le : mid ≤ H.length
  mem : mem = memOf (mid + 1) (H.drop mid)
  imm : (imm = none ∧ base = mid) ∨ imm = some (memOf (base + 1) ((H.take mid).drop base))

namespace Split

variable {mem : MemTable K V} {imm : Option (MemTable K V)} {v : Version K}
  {store : TableStore K V} {H : List (Op K V)} {base mid : Nat}

section

variable (h : Split mem imm v store H base mid)
include h

theorem take_append_drop :
    H.take base ++ (H.take mid).drop base = H.take mid := by
  conv_rhs => rw [← List.take_append_drop base (H.take mid)]
  rw [take_take, min_eq_left h.base_le]

theorem layers :
    Layers (history (H.take base)) (H.take base) mem imm v store [] ((H.take mid).drop base)
      (H.drop mid) := by
  have heq : v.entries store = history (H.take base) :=
    Set.Subset.antisymm h.holds.sub (h.holds.all trivial)
  rw [← heq]
  exact .of_take h.holds h.base_le h.mid_le h.mem h.imm

theorem mem_dbEntries {e : Entry K V} :
    e ∈ dbEntries mem imm v store ↔ e ∈ history H := by
  rw [h.layers.mem_dbEntries, nil_append, ← mem_history_append, ← append_assoc,
    h.take_append_drop, List.take_append_drop]

theorem readable : Readable mem imm v store :=
  h.layers.readable

/-- **Reads.** A read at `s` reports what the first `s` operations have made of the key. -/
theorem dbGet_reports (k : K) (s : Nat) :
    Reports (dbGet mem imm v store.cacheGet k s) (applyOps (H.take s) k) := by
  refine h.readable.dbGet_reports fun val => ?_
  rw [← visible_history]
  exact Entry.visible_congr (fun e _ _ => h.mem_dbEntries) val

end

end Split

end LevelDB
