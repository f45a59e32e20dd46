/-
  The memtable (`db/memtable.cc`) and the read path of the database (`DBImpl::Get`,
  `db/db_impl.cc`).

  The skip list is modelled by the list of its entries in key order; `add` inserts where
  `FindGreaterOrEqual` points.
-/
import LevelDB.Db.Batch
import LevelDB.Version.Layered

namespace LevelDB

open List SortedList Multiversion

variable {K V : Type} [LinearOrder K]

abbrev MemTable (K V : Type) := List (Entry K V)

namespace MemTable

def add (mem : MemTable K V) (e : Entry K V) : MemTable K V := insertSorted Entry.key e mem

/-- `MemTable::Add` for each operation of a batch. -/
def addAll (mem : MemTable K V) (es : List (Entry K V)) : MemTable K V := es.foldl add mem

/-- The entry that `MemTable::Get` looks at, if it has the user key. -/
def probe (mem : MemTable K V) (k : K) (s : Nat) : Option (Entry K V) :=
  (seek Entry.key mem (lookupKey k s)).filter fun e => decide (e.userKey = k)

/-- `MemTable::Get`: a value, a NotFound error for a deletion, or nothing. -/
def get (mem : MemTable K V) (k : K) (s : Nat) : Except Status (Option V) :=
  match mem.probe k s with
  | none => .ok none
  | some e =>
    match parseInternalKey e.key with
    | none => .ok none
    | some p =>
      match p.type with
      | .value => .ok (some e.value)
      | .deletion => .error (.notFoundErr "deleted in memtable")

theorem mem_addAll {mem : MemTable K V} {es : List (Entry K V)} {e : Entry K V} :
    e ∈ mem.addAll es ↔ e ∈ mem ∨ e ∈ es := by
  induction es generalizing mem with
  | nil => simp [addAll]
  | cons x es ih =>
    unfold addAll at ih ⊢
    rw [foldl_cons, ih, add, mem_insertSorted, mem_cons]
    tauto

theorem addAll_append (mem : MemTable K V) (a b : List (Entry K V)) :
    mem.addAll (a ++ b) = (mem.addAll a).addAll b := foldl_append

theorem foldl_addAll [Inhabited V] (mem : MemTable K V) (batches : List (WriteBatch K V)) :
    batches.foldl (fun mem b => mem.addAll b.entries) mem =
      mem.addAll (batches.flatMap WriteBatch.entries) := by
  induction batches generalizing mem with
  | nil => rfl
  | cons b batches ih => rw [foldl_cons, ih, flatMap_cons, addAll_append]

theorem addAll_strict_of_ne {mem : MemTable K V} {es : List (Entry K V)}
    (h : Strict Entry.key mem) (hes : es.Pairwise fun a b => a.key ≠ b.key)
    (hne : ∀ x ∈ mem, ∀ e ∈ es, x.key ≠ e.key) : Strict Entry.key (mem.addAll es) := by
  induction es generalizing mem with
  | nil => exact h
  | cons e es ih =>
    obtain ⟨he, hes⟩ := pairwise_cons.mp hes
    refine ih (h.insertSorted fun x hx => hne x hx e mem_cons_self) hes ?_
    intro x hx y hy
    obtain rfl | hx := mem_insertSorted.mp hx
    · exact he y hy
    · exact hne x hx y (mem_cons_of_mem _ hy)

theorem addAll_strict {mem : MemTable K V} {es : List (Entry K V)} (h : Strict Entry.key mem)
    (hes : es.Pairwise fun a b => a.sequence ≠ b.sequence)
    (hne : ∀ x ∈ mem, ∀ e ∈ es, x.sequence ≠ e.sequence) : Strict Entry.key (mem.addAll es) := by
  have hkey : ∀ {a b : Entry K V}, a.sequence ≠ b.sequence → a.key ≠ b.key :=
    fun hab heq => hab (congrArg InternalKey.sequence heq)
  exact addAll_strict_of_ne h (hes.imp hkey) fun x hx e he => hkey (hne x hx e he)

theorem probe_answers {mem : MemTable K V} (h : Strict Entry.key mem)
    (hwf : ∀ e ∈ mem, e.key.WellFormed) (k : K) (s : Nat) :
    Answers Entry.userKey Entry.tag {e | e ∈ mem} k (packSequenceAndType s kValueTypeForSeek)
      (mem.probe k s) := by
  have hvis : ∀ e ∈ mem, e.userKey = k → e.tag ≤ packSequenceAndType s kValueTypeForSeek →
      lookupKey k s ≤ e.key := fun e he hk ht =>
    Entry.lookupKey_le_of_visible (hwf e he) hk ((tag_le_lookup_iff (hwf e he) s).mp ht)
  unfold probe
  cases hseek : seek Entry.key mem (lookupKey k s) with
  | none =>
    intro ⟨e, he, hk, ht⟩
    exact absurd (seek_eq_none_iff.mp hseek e he) (not_lt.mpr (hvis e he hk ht))
  | some x =>
    have hxm := mem_of_seek_eq_some hseek
    have hmin := le_of_seek h hseek
    have hxle := le_of_seek_eq_some hseek
    by_cases hxk : x.userKey = k
    · simp only [Option.filter_some, hxk, decide_true, if_true]
      have hxs := Entry.visible_of_lookupKey_le (hwf x hxm) hxk hxle
      refine ⟨hxm, hxk, (tag_le_lookup_iff (hwf x hxm) s).mpr hxs, ?_⟩
      intro e he hk ht
      exact Entry.tag_le_of_key_le (hk.trans hxk.symm) (hmin e he (hvis e he hk ht))
    · simp only [Option.filter_some, hxk, decide_false, Bool.false_eq_true, if_false]
      intro ⟨e, he, hk, ht⟩
      have hlt : k < x.userKey := lt_of_le_of_ne (InternalKey.userKey_mono hxle) (Ne.symm hxk)
      have hle := InternalKey.userKey_mono (hmin e he (hvis e he hk ht))
      exact absurd hk (hlt.trans_le hle).ne'

end MemTable

/-! ## Reading the database -/

/-- `DBImpl::Get` on the captured memtables and version, at sequence number `s`. -/
def dbGet (mem : MemTable K V) (imm : Option (MemTable K V)) (v : Version K)
    (tableCache : TableCacheGet K V) (k : K) (s : Nat) : Except Status (Option V) :=
  match mem.get k s with
  | .error st => .error st
  | .ok (some val) => .ok (some val)
  | .ok none =>
    match imm.elim (.ok none) fun m => m.get k s with
    | .error st => .error st
    | .ok (some val) => .ok (some val)
    | .ok none => v.get tableCache k s

def dbEntries (mem : MemTable K V) (imm : Option (MemTable K V)) (v : Version K)
    (store : TableStore K V) : Set (Entry K V) :=
  {e | e ∈ mem ∨ (∃ m ∈ imm, e ∈ m) ∨ e ∈ v.entries store}

/-- What the read path relies on. -/
structure Readable (mem : MemTable K V) (imm : Option (MemTable K V)) (v : Version K)
    (store : TableStore K V) : Prop where
  strict : Strict Entry.key mem
  immStrict : ∀ m ∈ imm, Strict Entry.key m
  wellFormed : ∀ e ∈ dbEntries mem imm v store, e.key.WellFormed
  layered : v.Layered store
  inj : ∀ a ∈ dbEntries mem imm v store, ∀ b ∈ dbEntries mem imm v store,
    a.userKey = b.userKey → a.tag = b.tag → a = b
  memNewer : ∀ x ∈ mem, (∀ m ∈ imm, ∀ y ∈ m, y.sequence < x.sequence) ∧
    ∀ y ∈ v.entries store, y.sequence < x.sequence
  immNewer : ∀ m ∈ imm, ∀ x ∈ m, ∀ y ∈ v.entries store, y.sequence < x.sequence

section Read

variable {mem : MemTable K V} {imm : Option (MemTable K V)} {v : Version K}
  {store : TableStore K V}

theorem Readable.drop {store' : TableStore K V} (h : Readable mem imm v store)
    (hlayered : v.Layered store') (hentries : v.entries store' = v.entries store) :
    Readable mem none v store' := by
  have hsub : ∀ e ∈ dbEntries mem none v store', e ∈ dbEntries mem imm v store := by
    intro e he
    obtain he | ⟨m, hm, -⟩ | he := he
    · exact Or.inl he
    · cases hm
    · rw [hentries] at he
      exact Or.inr (Or.inr he)
  refine ⟨h.strict, fun m hm => (by cases hm), fun e he => h.wellFormed e (hsub e he), hlayered,
    fun a ha b hb => h.inj a (hsub a ha) b (hsub b hb), ?_, fun m hm => (by cases hm)⟩
  intro x hx
  refine ⟨fun m hm => (by cases hm), ?_⟩
  rw [hentries]
  exact (h.memNewer x hx).2

def dbProbe (mem : MemTable K V) (imm : Option (MemTable K V)) (v : Version K)
    (store : TableStore K V) (k : K) (s : Nat) : Option (Entry K V) :=
  (mem.probe k s).or ((imm.bind fun m => m.probe k s).or
    ((v.forEachOverlapping k (lookupKey k s)).findSome? fun f => (store f.number).probe k s))

theorem memtables_answer (h : Readable mem imm v store) (k : K) (s : Nat) :
    Answers Entry.userKey Entry.tag ({e | e ∈ mem} ∪ {e | ∃ m ∈ imm, e ∈ m}) k
      (packSequenceAndType s kValueTypeForSeek)
      ((mem.probe k s).or (imm.bind fun m => m.probe k s)) := by
  have hmem : Answers Entry.userKey Entry.tag {e | e ∈ mem} k
      (packSequenceAndType s kValueTypeForSeek) (mem.probe k s) :=
    MemTable.probe_answers h.strict (fun e he => h.wellFormed e (Or.inl he)) k s
  have himm : Answers Entry.userKey Entry.tag {e | ∃ m ∈ imm, e ∈ m} k
      (packSequenceAndType s kValueTypeForSeek) (imm.bind fun m => m.probe k s) := by
    cases imm with
    | none =>
      intro ⟨e, he, _⟩
      obtain ⟨m, hm, -⟩ := he
      cases hm
    | some m =>
      have hm := MemTable.probe_answers (h.immStrict m rfl)
        (fun e he => h.wellFormed e (Or.inr (Or.inl ⟨m, rfl, he⟩))) k s
      exact hm.congr fun e _ => by simp
  refine hmem.union ?_ himm
  intro x hx y hy _
  obtain ⟨m, hm, hym⟩ := hy
  exact Entry.tag_lt_of_sequence_lt ((h.memNewer x hx).1 m hm y hym)

theorem memtables_newer (h : Readable mem imm v store) :
    Newer Entry.userKey Entry.tag ({e | e ∈ mem} ∪ {e | ∃ m ∈ imm, e ∈ m}) (v.entries store) := by
  intro x hx y hy _
  obtain hx | ⟨m, hm, hxm⟩ := hx
  · exact Entry.tag_lt_of_sequence_lt ((h.memNewer x hx).2 y hy)
  · exact Entry.tag_lt_of_sequence_lt (h.immNewer m hm x hxm y hy)

theorem dbProbe_answers (h : Readable mem imm v store) (k : K) (s : Nat) :
    Answers Entry.userKey Entry.tag (dbEntries mem imm v store) k
      (packSequenceAndType s kValueTypeForSeek) (dbProbe mem imm v store k s) := by
  have hv := Version.forEachOverlapping_answers h.layered.intact h.layered.levelsSorted
    h.layered.order k s
  have hall := (memtables_answer h k s).union (memtables_newer h) hv
  rw [Option.or_assoc] at hall
  exact hall.congr fun e _ => or_assoc

theorem MemTable.get_of_probe (m : MemTable K V) (k : K) (s : Nat) :
    (∀ e ∈ m.probe k s, (∀ val, e.IsPut val → m.get k s = .ok (some val)) ∧
      (e.IsDeletion → m.get k s = .error (.notFoundErr "deleted in memtable"))) ∧
    (m.probe k s = none → m.get k s = .ok none) := by
  unfold MemTable.get
  refine ⟨?_, fun h => by rw [h]⟩
  intro e he
  rw [Option.mem_def.mp he]
  refine ⟨?_, ?_⟩
  · intro val ⟨p, hp, ht, hv⟩
    simp only [hp, ht, hv]
  · intro ⟨p, hp, ht⟩
    simp only [hp, ht]

theorem dbGet_of_memtables (mem : MemTable K V) (imm : Option (MemTable K V)) (v : Version K)
    (tableCache : TableCacheGet K V) (k : K) (s : Nat) :
    (∀ e ∈ (mem.probe k s).or (imm.bind fun m => m.probe k s),
      (∀ val, e.IsPut val → dbGet mem imm v tableCache k s = .ok (some val)) ∧
      (e.IsDeletion → dbGet mem imm v tableCache k s =
        .error (.notFoundErr "deleted in memtable"))) ∧
    ((mem.probe k s).or (imm.bind fun m => m.probe k s) = none →
      dbGet mem imm v tableCache k s = v.get tableCache k s) := by
  unfold dbGet
  cases hm : mem.probe k s with
  | some e =>
    refine ⟨?_, fun h => (nomatch h)⟩
    intro x hx
    obtain rfl := Option.some.inj hx
    obtain ⟨hput, hdel⟩ := (mem.get_of_probe k s).1 e hm
    exact ⟨fun val hval => by rw [hput val hval], fun hx => by rw [hdel hx]⟩
  | none =>
    rw [Option.none_or, (mem.get_of_probe k s).2 hm]
    dsimp only
    cases imm with
    | none => exact ⟨fun x hx => (nomatch hx), fun _ => rfl⟩
    | some m =>
      rw [Option.bind_some, Option.elim_some]
      refine ⟨?_, fun h => by rw [(m.get_of_probe k s).2 h]⟩
      intro x hx
      obtain ⟨hput, hdel⟩ := (m.get_of_probe k s).1 x hx
      exact ⟨fun val hval => by rw [hput val hval], fun hx => by rw [hdel hx]⟩

theorem dbGet_of_probe (k : K) (s : Nat) :
    (∀ e ∈ dbProbe mem imm v store k s, ∀ val, e.IsPut val →
      dbGet mem imm v store.cacheGet k s = .ok (some val)) ∧
    ((∀ e ∈ dbProbe mem imm v store k s, e.IsDeletion) →
      ∃ st, dbGet mem imm v store.cacheGet k s = .error st ∧ st.isNotFound = true) := by
  obtain ⟨hmemtables, hversion⟩ := dbGet_of_memtables mem imm v store.cacheGet k s
  unfold dbProbe
  rw [← Option.or_assoc]
  cases hm : (mem.probe k s).or (imm.bind fun m => m.probe k s) with
  | some e =>
    obtain ⟨hput, hdel⟩ := hmemtables e hm
    refine ⟨?_, fun hall => ⟨_, hdel (hall e rfl), rfl⟩⟩
    intro x hx val hval
    obtain rfl := Option.some.inj hx
    exact hput val hval
  | none =>
    rw [hversion hm, Option.none_or]
    unfold Version.get
    rw [Version.getLoop_eq]
    cases hf : (v.forEachOverlapping k (lookupKey k s)).findSome?
        (fun f => (store f.number).probe k s) with
    | none => exact ⟨fun x hx => (nomatch hx), fun _ => ⟨_, rfl, rfl⟩⟩
    | some e =>
      refine ⟨?_, ?_⟩
      · intro x hx val ⟨p, hp, ht, hv⟩
        obtain rfl := Option.some.inj hx
        simp only [hp, ht, hv]
      · intro hall
        obtain ⟨p, hp, ht⟩ := hall e rfl
        simp only [hp, ht]
        exact ⟨_, rfl, rfl⟩

/-- **Reading the database.** `Get` at `s` returns a value exactly when the newest entry of
    the key up to `s`, over both memtables and the version, is a put of it, and NotFound
    exactly when that entry is a deletion or does not exist. -/
theorem dbGet_spec (h : Readable mem imm v store) (k : K) (s : Nat) :
    (∀ val, dbGet mem imm v store.cacheGet k s = .ok (some val) ↔
      Entry.Visible (dbEntries mem imm v store) k s val) ∧
    ((∃ st, dbGet mem imm v store.cacheGet k s = .error st ∧ st.isNotFound = true) ↔
      (∃ e, Entry.NewestAt (dbEntries mem imm v store) k s e ∧ e.IsDeletion) ∨
      ¬ ∃ e ∈ dbEntries mem imm v store, e.userKey = k ∧ e.sequence ≤ s) :=
  Entry.lookup_iff h.wellFormed h.inj (dbProbe_answers h k s) (dbGet_of_probe k s).1
    (dbGet_of_probe k s).2

end Read

end LevelDB
