/-
  Versions and point lookups (`db/version_set.cc`): `FindFile`, `ForEachOverlapping`,
  `Version::Get`.

  What the tables hold is kept apart from versions, in a `TableStore` indexed by file number, as in
  the source, where reads go through the table cache.

  A lookup relies on three invariants: `Version.Intact`, `Version.LevelsSorted` and
  `Version.LevelOrder`. That the database keeps them is proved where its operations are modelled.
  `GetStats` (seek statistics) is not modelled here.
-/
import Mathlib.Data.List.Sort
import LevelDB.Table.Table

namespace LevelDB

open List Option SortedList Multiversion

def kNumLevels : Nat := 7

/-- `struct FileMetaData`, less `allowed_seeks`. -/
structure FileMetaData (K : Type) where
  number : Nat
  fileSize : Nat
  smallest : InternalKey K
  largest : InternalKey K
  deriving DecidableEq, Repr

/-- `class Version`: `files_[level]`, empty from `kNumLevels` on. -/
@[ext] structure Version (K : Type) where
  files : Nat → List (FileMetaData K)
  files_eq_nil : ∀ level, kNumLevels ≤ level → files level = []

theorem Version.nil_beyond {K : Type} (level : Nat) (_ : kNumLevels ≤ level) :
    (fun _ => [] : Nat → List (FileMetaData K)) level = [] := rfl

theorem Version.level_lt {K : Type} {v : Version K} {level : Nat} {f : FileMetaData K}
    (hf : f ∈ v.files level) : level < kNumLevels := by
  by_contra hge
  rw [v.files_eq_nil level (not_lt.mp hge)] at hf
  simp at hf

/-- `TableCache::Get(number, file_size, internal_key, handle_result)`: an error of the file,
    or the entry `handle_result` is called with, if any. -/
abbrev TableCacheGet (K V : Type) := Nat → InternalKey K → Except Status (Option (Entry K V))

abbrev TableStore (K V : Type) [LinearOrder K] := Nat → Table K V

def TableStore.cacheGet {K V : Type} [LinearOrder K] (store : TableStore K V) : TableCacheGet K V :=
  fun number internalKey => .ok ((store number).internalGet internalKey)

section Search

variable {K : Type} [LinearOrder K]

/-- `FindFile`: the smallest index whose `largest` is at or after `key`, by binary search. -/
def findFile (files : List (FileMetaData K)) (key : InternalKey K) : Nat :=
  bisect (fun mid => (files[mid]?.map fun f => decide (f.largest < key)).getD false) 0 files.length

def SortedDisjoint (files : List (FileMetaData K)) : Prop :=
  files.Pairwise fun f g => f.largest < g.smallest

section

variable {files : List (FileMetaData K)} (h : SortedDisjoint files)
  (hr : ∀ f ∈ files, f.smallest ≤ f.largest)
include h hr

theorem SortedDisjoint.largest_mono :
    files.Pairwise fun f g => f.largest < g.largest := by
  refine List.Pairwise.imp_of_mem ?_ h
  intro f g _ hg hfg
  exact hfg.trans_le (hr g hg)

theorem findFile_eq (key : InternalKey K) :
    findFile files key = files.findIdx fun f => decide (key ≤ f.largest) := by
  unfold findFile
  rw [bisect_list]
  · grind
  · refine (h.largest_mono hr).imp ?_
    intro f g hfg hg
    simp only [decide_eq_true_eq] at hg ⊢
    exact hfg.trans hg

end

end Search

/-! ## Lookups -/

namespace Version

variable {K V : Type} [LinearOrder K]

/-- The level-0 files that may hold `userKey`, newest first (`std::sort` by `NewestFirst`). -/
def overlappingLevelZero (v : Version K) (userKey : K) : List (FileMetaData K) :=
  ((v.files 0).filter fun f =>
    decide (f.smallest.userKey ≤ userKey) && decide (userKey ≤ f.largest.userKey)).mergeSort
      fun a b => decide (b.number ≤ a.number)

def overlappingInLevel (v : Version K) (level : Nat) (userKey : K) (internalKey : InternalKey K) :
    Option (FileMetaData K) :=
  match (v.files level)[findFile (v.files level) internalKey]? with
  | none => none
  | some f => if userKey < f.smallest.userKey then none else some f

/-- `Version::ForEachOverlapping`: the files in the order in which `func` is called on them. -/
def forEachOverlapping (v : Version K) (userKey : K) (internalKey : InternalKey K) :
    List (FileMetaData K) :=
  v.overlappingLevelZero userKey ++
    (List.range' 1 (kNumLevels - 1)).filterMap fun level =>
      v.overlappingInLevel level userKey internalKey

/-- `match_func` over the visited files: the first file that fails, or that has an entry for
    the user key, decides. -/
def getLoop (tableCache : TableCacheGet K V) (userKey : K) (internalKey : InternalKey K) :
    List (FileMetaData K) → Except Status (Option V)
  | [] => .error (.notFoundErr "not found")
  | f :: rest =>
    match tableCache f.number internalKey with
    | .error s => .error s
    | .ok none => getLoop tableCache userKey internalKey rest
    | .ok (some e) =>
      match parseInternalKey e.key with
      | none => .error (.corruptionErr "corrupted key")
      | some p =>
        if p.userKey = userKey then
          match p.type with
          | .value => .ok (some e.value)
          | .deletion => .error (.notFoundErr "deleted")
        else getLoop tableCache userKey internalKey rest

/-- `Version::Get` at `LookupKey(userKey, s)`. -/
def get (v : Version K) (tableCache : TableCacheGet K V) (userKey : K) (s : Nat) :
    Except Status (Option V) :=
  getLoop tableCache userKey (lookupKey userKey s)
    (v.forEachOverlapping userKey (lookupKey userKey s))

/-! ## Invariants of a version -/

/-- `f` is the metadata of the table `t`: `smallest` and `largest` are its first and last
    key. -/
structure Describes (f : FileMetaData K) (t : Table K V) : Prop where
  smallest_mem : ∃ e ∈ t.entries, e.key = f.smallest
  largest_mem : ∃ e ∈ t.entries, e.key = f.largest
  bounds : ∀ e ∈ t.entries, f.smallest ≤ e.key ∧ e.key ≤ f.largest

section

variable {f : FileMetaData K} {t : Table K V}

theorem Describes.smallest_le_largest (h : Describes f t) :
    f.smallest ≤ f.largest := by
  obtain ⟨e, he, hek⟩ := h.smallest_mem
  rw [← hek]
  exact (h.bounds e he).2

theorem Describes.userKey_bounds (h : Describes f t) {e : Entry K V} (he : e ∈ t.entries) :
    f.smallest.userKey ≤ e.userKey ∧ e.userKey ≤ f.largest.userKey :=
  ⟨InternalKey.userKey_mono (h.bounds e he).1, InternalKey.userKey_mono (h.bounds e he).2⟩

theorem describes_of_ends (hne : t.entries ≠ [])
    {d : InternalKey K} (hs : f.smallest = (t.entries.head?.map Entry.key).getD d)
    (hl : f.largest = (t.entries.getLast?.map Entry.key).getD d) : Describes f t := by
  have hsorted : Strict Entry.key t.entries := t.sorted
  have hhead : t.entries.head? = some (t.entries.head hne) := head?_eq_some_head hne
  have hlast : t.entries.getLast? = some (t.entries.getLast hne) :=
    getLast?_eq_some_getLast hne
  rw [hhead] at hs
  rw [hlast] at hl
  refine ⟨⟨_, head_mem hne, hs.symm⟩, ⟨_, getLast_mem hne, hl.symm⟩, ?_⟩
  intro e he
  rw [hs, hl]
  exact ⟨hsorted.head_le hhead e he, hsorted.le_getLast hlast e he⟩

end

def Intact (v : Version K) (store : TableStore K V) : Prop :=
  ∀ level, ∀ f ∈ v.files level, Describes f (store f.number)

def LevelsSorted (v : Version K) : Prop := ∀ level, 1 ≤ level → SortedDisjoint (v.files level)

def levelEntries (v : Version K) (store : TableStore K V) (level : Nat) : Set (Entry K V) :=
  {e | ∃ f ∈ v.files level, e ∈ (store f.number).entries}

def entries (v : Version K) (store : TableStore K V) : Set (Entry K V) :=
  {e | ∃ level, e ∈ v.levelEntries store level}

/-- All entries of `a` are newer than all entries of `b` of the same user key. -/
def NewerTable (a b : Table K V) : Prop :=
  ∀ x ∈ a.entries, ∀ y ∈ b.entries, x.userKey = y.userKey → y.sequence < x.sequence

/-- The level order: for each user key, entries at a smaller level, or in a level-0 file
    with a larger number, have larger sequence numbers. -/
structure LevelOrder (v : Version K) (store : TableStore K V) : Prop where
  levels : ∀ i j, i < j → ∀ f ∈ v.files i, ∀ g ∈ v.files j,
    NewerTable (store f.number) (store g.number)
  levelZero : ∀ f ∈ v.files 0, ∀ g ∈ v.files 0, g.number < f.number →
    NewerTable (store f.number) (store g.number)

/-! ## What a lookup sees -/

theorem getLoop_cons {tableCache : TableCacheGet K V} {k : K} {key : InternalKey K}
    {f : FileMetaData K} {r : Option (Entry K V)} (hr : tableCache f.number key = .ok r)
    (hwf : ∀ e ∈ r, e.key.WellFormed) (rest : List (FileMetaData K)) :
    getLoop tableCache k key (f :: rest) =
      match r.filter fun e => decide (e.userKey = k) with
      | none => getLoop tableCache k key rest
      | some e =>
        match parseInternalKey e.key with
        | none => .error (.corruptionErr "corrupted key")
        | some p =>
          match p.type with
          | .value => .ok (some e.value)
          | .deletion => .error (.notFoundErr "deleted") := by
  rw [getLoop, hr]
  cases r with
  | none => rfl
  | some e =>
    obtain ⟨p, hpe, hkey⟩ := exists_parse (hwf e rfl)
    have hu : p.userKey = e.userKey := by
      unfold Entry.userKey
      rw [hkey]; rfl
    by_cases hk : e.userKey = k
    · simp only [hpe, hu, hk, if_true, filter_some, decide_true]
    · simp only [hpe, hu, hk, if_false, filter_some, decide_false, Bool.false_eq_true]

theorem getLoop_eq (store : TableStore K V) (k : K) (s : Nat) (files : List (FileMetaData K)) :
    getLoop store.cacheGet k (lookupKey k s) files =
      match files.findSome? fun f => (store f.number).probe k s with
      | none => .error (.notFoundErr "not found")
      | some e =>
        match parseInternalKey e.key with
        | none => .error (.corruptionErr "corrupted key")
        | some p =>
          match p.type with
          | .value => .ok (some e.value)
          | .deletion => .error (.notFoundErr "deleted") := by
  induction files with
  | nil => rfl
  | cons f rest ih =>
    have hwf : ∀ e ∈ (store f.number).internalGet (lookupKey k s), e.key.WellFormed :=
      fun e he => (store f.number).internalGet_wellFormed he
    rw [getLoop_cons rfl hwf, findSome?_cons, Table.probe]
    cases ((store f.number).internalGet (lookupKey k s)).filter
        (fun e => decide (e.userKey = k)) with
    | none => exact ih
    | some e => rfl

theorem level_answers {v : Version K} {store : TableStore K V} (hint : v.Intact store)
    {level : Nat} (hsort : SortedDisjoint (v.files level)) (k : K) (s : Nat) :
    Answers Entry.userKey Entry.tag (v.levelEntries store level) k
      (packSequenceAndType s kValueTypeForSeek)
      ((v.overlappingInLevel level k (lookupKey k s)).bind fun f => (store f.number).probe k s) := by
  have hdesc : ∀ f ∈ v.files level, Describes f (store f.number) := hint level
  have hrange : ∀ f ∈ v.files level, f.smallest ≤ f.largest :=
    fun f hf => (hdesc f hf).smallest_le_largest
  have hseen : ∀ {f : FileMetaData K} {e : Entry K V}, f ∈ v.files level →
      e ∈ (store f.number).entries → e.userKey = k →
      e.tag ≤ packSequenceAndType s kValueTypeForSeek → lookupKey k s ≤ e.key := by
    intro f e _ he hek het
    have hwf := (store f.number).entries_wellFormed e he
    exact Entry.lookupKey_le_of_visible hwf hek ((tag_le_lookup_iff hwf s).mp het)
  unfold overlappingInLevel
  rw [findFile_eq hsort hrange]
  generalize hidx : (v.files level).findIdx (fun f => decide (lookupKey k s ≤ f.largest)) = idx
  -- no visible entry of `k` before the index
  have hbefore : ∀ i (hi : i < (v.files level).length), i < idx →
      ∀ e ∈ (store (v.files level)[i].number).entries, e.userKey = k →
        ¬ e.tag ≤ packSequenceAndType s kValueTypeForSeek := by
    intro i hi hlt e he hek het
    have hlt' : i < (v.files level).findIdx (fun f => decide (lookupKey k s ≤ f.largest)) := by
      rw [hidx]; exact hlt
    have hnot : ¬ lookupKey k s ≤ (v.files level)[i].largest := by
      simpa using not_of_lt_findIdx hlt'
    have hmem := getElem_mem hi
    exact hnot ((hseen hmem he hek het).trans ((hdesc _ hmem).bounds e he).2)
  by_cases hlen : idx < (v.files level).length
  · rw [getElem?_eq_getElem hlen]
    have hlast : lookupKey k s ≤ (v.files level)[idx].largest := by
      have hlen' : (v.files level).findIdx (fun f => decide (lookupKey k s ≤ f.largest)) <
          (v.files level).length := by rw [hidx]; exact hlen
      have := findIdx_getElem (w := hlen')
      simpa [hidx] using this
    have hfm := getElem_mem hlen
    have hafter : ∀ i (hi : i < (v.files level).length), idx < i →
        ∀ e ∈ (store (v.files level)[i].number).entries, (v.files level)[idx].largest < e.key := by
      intro i hi hlt e he
      have := (pairwise_iff_getElem.mp hsort) idx i hlen hi hlt
      exact this.trans_le ((hdesc _ (getElem_mem hi)).bounds e he).1
    -- where a visible entry of `k` can be
    have hwhere : ∀ e ∈ v.levelEntries store level, e.userKey = k →
        e.tag ≤ packSequenceAndType s kValueTypeForSeek →
        e ∈ (store (v.files level)[idx].number).entries ∨ (v.files level)[idx].largest < e.key := by
      rintro e ⟨f, hf, he⟩ hek het
      obtain ⟨i, hi, rfl⟩ := getElem_of_mem hf
      rcases lt_trichotomy i idx with h | h | h
      · exact absurd het (hbefore i hi h e he hek)
      · subst h; exact Or.inl he
      · exact Or.inr (hafter i hi h e he)
    by_cases hsm : k < (v.files level)[idx].smallest.userKey
    · -- the file and everything after it is past `k`
      simp only [hsm, if_true, bind_none]
      rintro ⟨e, he, hek, het⟩
      have hle : (v.files level)[idx].smallest ≤ e.key := by
        rcases hwhere e he hek het with h | h
        · exact ((hdesc _ hfm).bounds e h).1
        · exact (hrange _ hfm).trans h.le
      exact absurd hek (hsm.trans_le (InternalKey.userKey_mono hle)).ne'
    · simp only [hsm, if_false, bind_some]
      have hans := (store (v.files level)[idx].number).probe_answers k s
      cases hp : (store (v.files level)[idx].number).probe k s with
      | some e =>
        rw [hp] at hans
        obtain ⟨he, hek, het, hmax⟩ := hans
        refine ⟨⟨_, hfm, he⟩, hek, het, ?_⟩
        intro x hx hxk hxt
        rcases hwhere x hx hxk hxt with h | h
        · exact hmax x h hxk hxt
        · exact Entry.tag_le_of_key_le (hxk.trans hek.symm)
            (((hdesc _ hfm).bounds e he).2.trans h.le)
      | none =>
        rw [hp] at hans
        rintro ⟨e, he, hek, het⟩
        rcases hwhere e he hek het with h | h
        · exact hans ⟨e, h, hek, het⟩
        · -- the entries of `k` go on in a later file, so the last key of this one is of `k`
          obtain ⟨x, hx, hxl⟩ := (hdesc _ hfm).largest_mem
          have hxu : x.userKey = k := by
            refine le_antisymm ?_ ?_
            · rw [← hek]
              unfold Entry.userKey
              rw [hxl]; exact InternalKey.userKey_mono h.le
            · unfold Entry.userKey
              rw [hxl]; exact InternalKey.userKey_mono hlast
          have hwf := (store (v.files level)[idx].number).entries_wellFormed x hx
          refine hans ⟨x, hx, hxu, (tag_le_lookup_iff hwf s).mpr ?_⟩
          exact Entry.visible_of_lookupKey_le hwf hxu (hxl ▸ hlast)
  · rw [getElem?_eq_none (not_lt.mp hlen)]
    rintro ⟨e, ⟨f, hf, he⟩, hek, het⟩
    obtain ⟨i, hi, rfl⟩ := getElem_of_mem hf
    exact hbefore i hi (hi.trans_le (not_lt.mp hlen)) e he hek het

theorem overlappingLevelZero_pairwise (v : Version K) (k : K) :
    (v.overlappingLevelZero k).Pairwise fun f g => g.number ≤ f.number := by
  have htrans : ∀ a b c : FileMetaData K, decide (b.number ≤ a.number) = true →
      decide (c.number ≤ b.number) = true → decide (c.number ≤ a.number) = true := by
    intro a b c; simp only [decide_eq_true_eq]; omega
  have htotal : ∀ a b : FileMetaData K,
      (decide (b.number ≤ a.number) || decide (a.number ≤ b.number)) = true := by
    intro a b; simp only [Bool.or_eq_true, decide_eq_true_eq]; omega
  simpa [overlappingLevelZero] using pairwise_mergeSort htrans htotal
    ((v.files 0).filter fun f =>
      decide (f.smallest.userKey ≤ k) && decide (k ≤ f.largest.userKey))

theorem mem_overlappingLevelZero {v : Version K} {k : K} {f : FileMetaData K} :
    f ∈ v.overlappingLevelZero k ↔
      f ∈ v.files 0 ∧ f.smallest.userKey ≤ k ∧ k ≤ f.largest.userKey := by
  simp [overlappingLevelZero]

def layers (v : Version K) (store : TableStore K V) (k : K) (s : Nat) :
    List (Set (Entry K V) × Option (Entry K V)) :=
  ((v.overlappingLevelZero k).map fun f =>
    ((store f.number).entrySet, (store f.number).probe k s)) ++
  ((List.range' 1 (kNumLevels - 1)).map fun level =>
    (v.levelEntries store level,
      (v.overlappingInLevel level k (lookupKey k s)).bind fun f => (store f.number).probe k s))

theorem findSome_forEachOverlapping (v : Version K) (store : TableStore K V) (k : K) (s : Nat) :
    ((v.forEachOverlapping k (lookupKey k s)).findSome? fun f => (store f.number).probe k s) =
      (v.layers store k s).findSome? Prod.snd := by
  unfold forEachOverlapping layers
  rw [findSome?_append, findSome?_append, findSome_filterMap, findSome?_map,
    findSome?_map]
  rfl

theorem newer_of_newerTable {a b : Table K V} (h : NewerTable a b) :
    Newer Entry.userKey Entry.tag a.entrySet b.entrySet :=
  fun x hx y hy hk => Entry.tag_lt_of_sequence_lt (h x hx y hy hk)

theorem layers_ordered {v : Version K} {store : TableStore K V} (hord : v.LevelOrder store)
    (k : K) (s : Nat) : (v.layers store k s).Pairwise fun a b =>
      Newer Entry.userKey Entry.tag a.1 b.1 ∨ b.1 ⊆ a.1 := by
  unfold layers
  rw [pairwise_append, pairwise_map, pairwise_map]
  refine ⟨?_, ?_, ?_⟩
  · refine List.Pairwise.imp_of_mem ?_ (v.overlappingLevelZero_pairwise k)
    intro f g hf hg hfg
    rcases Nat.lt_or_eq_of_le hfg with h | h
    · exact Or.inl (newer_of_newerTable
        (hord.levelZero f (mem_overlappingLevelZero.mp hf).1 g (mem_overlappingLevelZero.mp hg).1 h))
    · right
      rw [h]
  · have hlt : (List.range' 1 (kNumLevels - 1)).Pairwise (· < ·) := by decide
    refine hlt.imp ?_
    rintro i j hij
    left
    rintro x ⟨f, hf, hx⟩ y ⟨g, hg, hy⟩ hk
    exact Entry.tag_lt_of_sequence_lt (hord.levels i j hij f hf g hg x hx y hy hk)
  · intro a ha b hb
    obtain ⟨f, hf, rfl⟩ := List.mem_map.mp ha
    obtain ⟨j, hj, rfl⟩ := List.mem_map.mp hb
    have hj1 : 0 < j := by
      have := mem_range'_1.mp hj
      omega
    left
    rintro x hx y ⟨g, hg, hy⟩ hk
    exact Entry.tag_lt_of_sequence_lt
      (hord.levels 0 j hj1 f (mem_overlappingLevelZero.mp hf).1 g hg x hx y hy hk)

theorem mem_layers_iff {v : Version K} {store : TableStore K V} (hint : v.Intact store) {k : K}
    (s : Nat) {e : Entry K V} (hek : e.userKey = k) :
    (∃ l ∈ v.layers store k s, e ∈ l.1) ↔ e ∈ v.entries store := by
  unfold layers
  constructor
  · rintro ⟨l, hl, he⟩
    rcases mem_append.mp hl with hl | hl
    · obtain ⟨f, hf, rfl⟩ := List.mem_map.mp hl
      exact ⟨0, f, (mem_overlappingLevelZero.mp hf).1, he⟩
    · obtain ⟨level, -, rfl⟩ := List.mem_map.mp hl
      exact ⟨level, he⟩
  · rintro ⟨level, f, hf, he⟩
    rcases Nat.eq_zero_or_pos level with rfl | hpos
    · have hb := (hint 0 f hf).userKey_bounds he
      rw [hek] at hb
      exact ⟨_, mem_append_left _ (List.mem_map.mpr
        ⟨f, mem_overlappingLevelZero.mpr ⟨hf, hb⟩, rfl⟩), he⟩
    · have hlt : level < kNumLevels := by
        by_contra h
        rw [v.files_eq_nil level (not_lt.mp h)] at hf
        simp at hf
      refine ⟨_, mem_append_right _ (List.mem_map.mpr ⟨level, ?_, rfl⟩), ⟨f, hf, he⟩⟩
      rw [mem_range'_1]
      omega

theorem entries_wellFormed (v : Version K) (store : TableStore K V) :
    ∀ e ∈ v.entries store, e.key.WellFormed := by
  rintro e ⟨level, f, hf, he⟩
  exact (store f.number).entries_wellFormed e he

section

variable {v : Version K} {store : TableStore K V} (hint : v.Intact store) (hsort : v.LevelsSorted)
  (hord : v.LevelOrder store)
include hint hsort hord

theorem forEachOverlapping_answers (k : K) (s : Nat) :
    Answers Entry.userKey Entry.tag (v.entries store) k (packSequenceAndType s kValueTypeForSeek)
      ((v.forEachOverlapping k (lookupKey k s)).findSome? fun f => (store f.number).probe k s) := by
  rw [findSome_forEachOverlapping]
  refine (answers_stack ?_ (layers_ordered hord k s)).congr
    (fun e hek => mem_layers_iff hint s hek)
  intro l hl
  rcases mem_append.mp hl with hl | hl
  · obtain ⟨f, -, rfl⟩ := List.mem_map.mp hl
    exact (store f.number).probe_answers k s
  · obtain ⟨level, hlevel, rfl⟩ := List.mem_map.mp hl
    have := mem_range'_1.mp hlevel
    exact level_answers hint (hsort level (by omega)) k s

theorem key_ne_of_files {i j : Nat} {f g : FileMetaData K}
    (hf : f ∈ v.files i) (hg : g ∈ v.files j) (hne : i ≠ j ∨ f.number ≠ g.number)
    {a b : Entry K V} (ha : a ∈ (store f.number).entries) (hb : b ∈ (store g.number).entries) :
    a.key ≠ b.key := by
  intro hkey
  have hu : a.userKey = b.userKey := congrArg InternalKey.userKey hkey
  have hseq : a.sequence = b.sequence := congrArg InternalKey.sequence hkey
  obtain hlt | rfl | hlt := lt_trichotomy i j
  · have := hord.levels i j hlt f hf g hg a ha b hb hu
    omega
  · have hn : f.number ≠ g.number := hne.resolve_left fun h => h rfl
    obtain rfl | hpos := Nat.eq_zero_or_pos i
    · obtain hlt | hlt := Nat.lt_or_gt_of_ne hn
      · have := hord.levelZero g hg f hf hlt b hb a ha hu.symm
        omega
      · have := hord.levelZero f hf g hg hlt a ha b hb hu
        omega
    · -- files of a sorted level are disjoint
      have hfa := (hint i f hf).bounds a ha
      have hgb := (hint i g hg).bounds b hb
      obtain hlt | hlt := pairwise_either (hsort i hpos) hf hg fun h => hn (congrArg _ h)
      · exact (hfa.2.trans_lt (hlt.trans_le hgb.1)).ne hkey
      · exact (hgb.2.trans_lt (hlt.trans_le hfa.1)).ne hkey.symm
  · have := hord.levels j i hlt g hg f hf b hb a ha hu.symm
    omega

theorem entries_inj :
    ∀ a ∈ v.entries store, ∀ b ∈ v.entries store, a.userKey = b.userKey → a.tag = b.tag →
      a = b := by
  intro a ⟨i, f, hf, ha⟩ b ⟨j, g, hg, hb⟩ hu ht
  have hkey : a.key = b.key := InternalKey.ext hu ht
  by_cases hne : i ≠ j ∨ f.number ≠ g.number
  · exact absurd hkey (key_ne_of_files hint hsort hord hf hg hne ha hb)
  · obtain ⟨-, hn⟩ := not_or.mp hne
    rw [← not_not.mp hn] at hb
    exact (store f.number).sorted.eq_of_key_eq ha hb hkey

end

/-- **Point lookup.** On a version with sorted levels and the level order, over intact
    tables, `Get` returns `val` exactly when the newest entry of `k` with sequence at most
    `s` over all files of all levels is a put of `val`, and NotFound exactly when that entry
    is a deletion or does not exist. -/
theorem get_newest {v : Version K} {store : TableStore K V} (hint : v.Intact store)
    (hsort : v.LevelsSorted) (hord : v.LevelOrder store) (k : K) (s : Nat) :
    (∀ val, v.get store.cacheGet k s = .ok (some val) ↔ Entry.Visible (v.entries store) k s val) ∧
    ((∃ st, v.get store.cacheGet k s = .error st ∧ st.isNotFound = true) ↔
      (∃ e, Entry.NewestAt (v.entries store) k s e ∧ e.IsDeletion) ∨
      ¬ ∃ e ∈ v.entries store, e.userKey = k ∧ e.sequence ≤ s) := by
  refine Entry.lookup_iff (v.entries_wellFormed store) (entries_inj hint hsort hord)
    (forEachOverlapping_answers hint hsort hord k s) ?_ ?_
  · intro e he val hput
    unfold get
    rw [getLoop_eq, mem_def.mp he]
    obtain ⟨p, hp, ht, rfl⟩ := hput
    simp only [hp, ht]
  · intro hdel
    unfold get
    rw [getLoop_eq]
    cases hf : (v.forEachOverlapping k (lookupKey k s)).findSome?
        (fun f => (store f.number).probe k s) with
    | none => exact ⟨_, rfl, rfl⟩
    | some e =>
      obtain ⟨p, hp, ht⟩ := hdel e hf
      simp only [hp, ht]
      exact ⟨_, rfl, rfl⟩

/-- The entries of user key 4 go on from file 1 to file 2 of level 1, and file 3 of level 0
    has a newer one. -/
def straddling : Version Nat where
  files
    | 0 => [⟨3, 40, ⟨4, packSequenceAndType 9 .deletion⟩, ⟨4, packSequenceAndType 9 .deletion⟩⟩]
    | 1 => [⟨1, 60, ⟨3, packSequenceAndType 6 .value⟩, ⟨4, packSequenceAndType 5 .value⟩⟩,
            ⟨2, 60, ⟨4, packSequenceAndType 3 .value⟩, ⟨5, packSequenceAndType 2 .value⟩⟩]
    | _ => []
  files_eq_nil
    | 0, h => absurd h (by decide)
    | 1, h => absurd h (by decide)
    | _ + 2, _ => rfl

def straddlingStore : TableStore Nat String
  | 1 => Table.ofEntries [⟨⟨3, packSequenceAndType 6 .value⟩, "a"⟩,
      ⟨⟨4, packSequenceAndType 5 .value⟩, "b"⟩] (by decide) (by decide)
  | 2 => Table.ofEntries [⟨⟨4, packSequenceAndType 3 .value⟩, "c"⟩,
      ⟨⟨5, packSequenceAndType 2 .value⟩, "d"⟩] (by decide) (by decide)
  | 3 => Table.ofEntries [⟨⟨4, packSequenceAndType 9 .deletion⟩, ""⟩] (by decide) (by decide)
  | _ => Table.ofEntries [] Table.strict_nil Table.wellFormed_nil

theorem straddling_intact : straddling.Intact straddlingStore
  | 0, f, hf => by
    obtain rfl := mem_singleton.mp hf
    exact ⟨by decide, by decide, by decide⟩
  | 1, f, hf => by
    rcases mem_pair.mp hf with rfl | rfl
    · exact ⟨by decide, by decide, by decide⟩
    · exact ⟨by decide, by decide, by decide⟩
  | _ + 2, _, hf => absurd hf (not_mem_nil)

theorem straddling_levelsSorted : straddling.LevelsSorted
  | 0, h => absurd h (by decide)
  | 1, _ => by unfold SortedDisjoint; decide
  | _ + 2, _ => List.Pairwise.nil

theorem straddling_levelOrder : straddling.LevelOrder straddlingStore where
  levels
    | 0, 1, _, f, hf, g, hg => by
      obtain rfl := mem_singleton.mp hf
      rcases mem_pair.mp hg with rfl | rfl <;> unfold NewerTable <;> decide
    | 0, _ + 2, _, _, _, _, hg => absurd hg (not_mem_nil)
    | 1, _ + 2, _, _, _, _, hg => absurd hg (not_mem_nil)
    | _ + 2, _, _, _, hf, _, _ => absurd hf (not_mem_nil)
  levelZero f hf g hg h := by
    rw [mem_singleton.mp hf, mem_singleton.mp hg] at h
    exact absurd h (lt_irrefl _)

theorem get_newest_straddling :
    straddling.Intact straddlingStore ∧ straddling.LevelsSorted ∧
    straddling.LevelOrder straddlingStore ∧
    (straddling.get straddlingStore.cacheGet 4 3 = .ok (some "c") ↔
      Entry.Visible (straddling.entries straddlingStore) 4 3 "c") :=
  ⟨straddling_intact, straddling_levelsSorted, straddling_levelOrder,
    (get_newest straddling_intact straddling_levelsSorted straddling_levelOrder 4 3).1 "c"⟩

end Version
end LevelDB
