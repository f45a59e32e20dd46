/-
  Lookups when tables cannot be read (`db/table_cache.cc`, `db/version_set.cc`).

  A table that is not in the table cache is opened under its name. `NewRandomAccessFile` reports a
  file that is not there as NotFound, and this status goes through `TableCache::Get` and
  `Version::Get` to the caller of `DBImpl::Get`, who takes it for the absence of the key.
-/
import LevelDB.Db.Durability
import LevelDB.Db.FileName

namespace LevelDB

variable {K V : Type}

/-! ## The table cache -/

/-- What has become of the files of the tables: which tables are open in the table cache, which
    names are there, and what `Table::Open` and `InternalGet` make of the bytes. The bytes may be
    damaged in any way; neither function reports NotFound. -/
structure TableFiles (K V : Type) where
  cached : Nat → Bool
  fileExists : Nat → Bool
  read : TableCacheGet K V
  read_error : ∀ number key st, read number key = .error st → st.isNotFound = false

namespace TableFiles

def isThere (files : TableFiles K V) (number : Nat) : Bool :=
  files.cached number || files.fileExists number

/-- `TableCache::Get`, with `FindTable`. -/
def cacheGet (dbname : String) (files : TableFiles K V) : TableCacheGet K V := fun number key =>
  if files.isThere number then files.read number key
  else .error (.notFoundErr (tableFileName dbname number))

end TableFiles

/-! ## Which table decides -/

variable [LinearOrder K]

/-- The answer ends the lookup of `k`. -/
def decides (k : K) : Except Status (Option (Entry K V)) → Bool
  | .error _ => true
  | .ok none => false
  | .ok (some e) => (parseInternalKey e.key).elim true fun p => decide (p.userKey = k)

/-- What `Version::Get` makes of the answer that ends the lookup. -/
def outcome : Except Status (Option (Entry K V)) → Except Status (Option V)
  | .error st => .error st
  | .ok none => .error (.notFoundErr "not found")
  | .ok (some e) =>
    match parseInternalKey e.key with
    | none => .error (.corruptionErr "corrupted key")
    | some p =>
      match p.type with
      | .value => .ok (some e.value)
      | .deletion => .error (.notFoundErr "deleted")

namespace Version

variable {v : Version K} {tableCache : TableCacheGet K V} {k : K} {s : Nat}

def decidingFile (v : Version K) (tableCache : TableCacheGet K V) (k : K) (s : Nat) :
    Option (FileMetaData K) :=
  (v.forEachOverlapping k (lookupKey k s)).find? fun f =>
    decides k (tableCache f.number (lookupKey k s))

theorem getLoop_eq_outcome (tableCache : TableCacheGet K V) (k : K) (key : InternalKey K)
    (files : List (FileMetaData K)) :
    getLoop tableCache k key files =
      match files.find? fun f => decides k (tableCache f.number key) with
      | none => .error (.notFoundErr "not found")
      | some f => outcome (tableCache f.number key) := by
  induction files with
  | nil => rfl
  | cons f rest ih =>
    rw [getLoop, List.find?_cons]
    cases hr : tableCache f.number key with
    | error st => simp [decides, outcome, hr]
    | ok r =>
      cases r with
      | none => simpa [decides] using ih
      | some e =>
        cases hp : parseInternalKey e.key with
        | none => simp [decides, outcome, hr, hp]
        | some p =>
          by_cases hk : p.userKey = k
          · cases ht : p.type <;>
              simp only [decides, outcome, hr, hp, hk, ht, Option.elim_some, decide_true, if_true]
          · simpa [decides, hp, hk] using ih

theorem get_eq_outcome (v : Version K) (tableCache : TableCacheGet K V) (k : K) (s : Nat) :
    v.get tableCache k s =
      match v.decidingFile tableCache k s with
      | none => .error (.notFoundErr "not found")
      | some f => outcome (tableCache f.number (lookupKey k s)) :=
  getLoop_eq_outcome tableCache k (lookupKey k s) _

def EndsWell (dbname : String) (files : TableFiles K V) (v : Version K) (k : K) (s : Nat) : Prop :=
  ∃ f, v.decidingFile (files.cacheGet dbname) k s = some f ∧ files.isThere f.number = true ∧
    ∀ e, files.read f.number (lookupKey k s) = .ok (some e) → ¬ e.IsDeletion

theorem get_notFound_iff (dbname : String) (files : TableFiles K V) (v : Version K) (k : K)
    (s : Nat) :
    (∃ st, v.get (files.cacheGet dbname) k s = .error st ∧ st.isNotFound = true) ↔
      ¬ v.EndsWell dbname files k s := by
  rw [get_eq_outcome]
  unfold EndsWell
  cases hf : v.decidingFile (files.cacheGet dbname) k s with
  | none =>
    refine ⟨?_, fun _ => ⟨_, rfl, rfl⟩⟩
    intro _ ⟨f, hf', _⟩
    cases hf'
  | some f =>
    have hdecides := List.find?_some hf
    have hends : (∃ f', some f = some f' ∧ files.isThere f'.number = true ∧
        ∀ e, files.read f'.number (lookupKey k s) = .ok (some e) → ¬ e.IsDeletion) ↔
        files.isThere f.number = true ∧
          ∀ e, files.read f.number (lookupKey k s) = .ok (some e) → ¬ e.IsDeletion := by
      simp
    rw [hends]
    dsimp only
    unfold TableFiles.cacheGet at hdecides ⊢
    by_cases hthere : files.isThere f.number = true
    · rw [if_pos hthere] at hdecides ⊢
      cases hr : files.read f.number (lookupKey k s) with
      | error st =>
        have := files.read_error _ _ _ hr
        simp [outcome, hthere, this]
      | ok r =>
        rw [hr] at hdecides
        cases r with
        | none => simp [decides] at hdecides
        | some e =>
          simp only [hthere, true_and, outcome]
          cases hp : parseInternalKey e.key with
          | none =>
            have hnot : ¬ e.IsDeletion := fun ⟨p, hp', _⟩ => by
              rw [hp] at hp'
              cases hp'
            simp [hnot, Status.isNotFound, Status.corruptionErr]
          | some p =>
            cases ht : p.type with
            | value =>
              have hnot : ¬ e.IsDeletion := Entry.not_isDeletion_of_isPut ⟨p, hp, ht, rfl⟩
              simp [ht, hnot]
            | deletion =>
              have hdel : e.IsDeletion := ⟨p, hp, ht⟩
              simp [ht, hdel, Status.isNotFound, Status.notFoundErr]
    · rw [if_neg hthere]
      simp [outcome, hthere, Status.isNotFound, Status.notFoundErr]

end Version

/-! ## Honest answers -/

section Readable

open Multiversion

variable {mem : MemTable K V} {imm : Option (MemTable K V)} {v : Version K}
  {store : TableStore K V} {k : K} {s : Nat} {e x : Entry K V}

theorem Readable.newest_of_memtable (h : Readable mem imm v store)
    (he : (mem.probe k s).or (imm.bind fun m => m.probe k s) = some e) :
    Entry.NewestAt (dbEntries mem imm v store) k s e ∧
      ∀ x ∈ v.entries store, ¬ Entry.NewestAt (dbEntries mem imm v store) k s x := by
  have hans := memtables_answer h k s
  rw [he] at hans
  have hnew : Entry.NewestAt (dbEntries mem imm v store) k s e := by
    rw [Entry.newestAt_iff h.wellFormed]
    have hall : Answers Entry.userKey Entry.tag _ k (packSequenceAndType s kValueTypeForSeek)
        (some e) := newest_union_left (memtables_newer h) hans
    exact hall.congr fun e _ => or_assoc
  refine ⟨hnew, ?_⟩
  intro x hx ⟨_, hxk, _, hmax⟩
  obtain ⟨heD, hek, hes, -⟩ := hnew
  have hlt := memtables_newer h e hans.1 x hx (hek.trans hxk.symm)
  exact absurd (hmax e heD hek hes) (not_le.mpr hlt)

theorem Readable.newest_in_tables (h : Readable mem imm v store)
    (hnone : (mem.probe k s).or (imm.bind fun m => m.probe k s) = none)
    (hx : Entry.NewestAt (dbEntries mem imm v store) k s x) : x ∈ v.entries store := by
  have hans := memtables_answer h k s
  rw [hnone] at hans
  obtain ⟨hxD, hxk, hxs, -⟩ := hx
  have ht := (tag_le_lookup_iff (h.wellFormed x hxD) s).mpr hxs
  obtain hm | hi | hv := hxD
  · exact absurd ⟨x, Or.inl hm, hxk, ht⟩ hans
  · exact absurd ⟨x, Or.inr hi, hxk, ht⟩ hans
  · exact hv

theorem Readable.notFound_iff (h : Readable mem imm v store) (dbname : String)
    (files : TableFiles K V) :
    (∀ st, dbGet mem imm v (files.cacheGet dbname) k s = .error st → st.isNotFound = true →
      ¬ ∃ val, Entry.Visible (dbEntries mem imm v store) k s val) ↔
    ((∃ e ∈ v.entries store, Entry.NewestAt (dbEntries mem imm v store) k s e ∧ ¬ e.IsDeletion) →
      v.EndsWell dbname files k s) := by
  obtain ⟨hmemtables, hversion⟩ := dbGet_of_memtables mem imm v (files.cacheGet dbname) k s
  cases hp : (mem.probe k s).or (imm.bind fun m => m.probe k s) with
  | some e =>
    obtain ⟨hnew, hnotable⟩ := h.newest_of_memtable hp
    refine ⟨fun _ ⟨x, hx, hxnew, _⟩ => absurd hxnew (hnotable x hx), fun _ => ?_⟩
    intro st hst _ ⟨val, x, ⟨hxD, hxk, hxs, hxmax⟩, hput⟩
    obtain ⟨heD, hek, hes, hemax⟩ := hnew
    obtain rfl : x = e := h.inj x hxD e heD (hxk.trans hek.symm)
      (le_antisymm (hemax x hxD hxk hxs) (hxmax e heD hek hes))
    rw [(hmemtables x hp).1 val hput] at hst
    cases hst
  | none =>
    rw [hversion hp]
    constructor
    · intro hbelieved ⟨e, he, hnew, hdel⟩
      by_contra hends
      obtain ⟨st, hst, hnot⟩ := (Version.get_notFound_iff dbname files v k s).mpr hends
      obtain hput | hdel' := Entry.isPut_or_isDeletion (h.wellFormed e hnew.1)
      · exact hbelieved st hst hnot ⟨e.value, e, hnew, hput⟩
      · exact hdel hdel'
    · intro hends st hst hnot ⟨val, x, hnew, hput⟩
      refine (Version.get_notFound_iff dbname files v k s).mp ⟨st, hst, hnot⟩ (hends ?_)
      exact ⟨x, h.newest_in_tables hp hnew, hnew, Entry.not_isDeletion_of_isPut hput⟩

end Readable

section Runs

variable [Inhabited K] [Inhabited V] {cfg : Config K V} {full : Prop} {db : Db K V}
  {hist : List (Op K V)} {m : Nat} {file : LogFile (VersionEdit K)} {A : Set (Checkpoint K)}
  {P : Set (Nat × Nat)} {c : Checkpoint K} {mid : Nat}

theorem Session.readable (h : Session cfg full db hist m file A P c mid) :
    Readable db.mem db.imm db.versions.current db.disk.store :=
  (Layers.of_take h.holds h.base_le h.mid_le h.mem h.imm).readable

/-- The tables are as they were written, and the names `gone` are missing. -/
def sampleFiles (gone : List Nat) : TableFiles Nat String where
  cached := fun _ => false
  fileExists := fun number => !gone.contains number
  read := sampleFlushed.disk.store.cacheGet
  read_error := fun _ _ _ h => by cases h

end Runs

end LevelDB
