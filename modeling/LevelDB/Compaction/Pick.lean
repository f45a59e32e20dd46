/-
  What `PickCompaction` goes by (`db/version_set.cc`): the level that `Finalize` scores best, and
  the file that lookups charge with seeks (`Version::Get`, `UpdateStats`, `RecordReadSample`).

  Versions stay alive while a lookup uses them, so a lookup may charge a file of an old version.
  Levels are integers here, as in the source, where -1 stands for none; `tryPickCompaction` checks
  every index before it uses it. A call is one step.
-/
import Mathlib.Algebra.Order.Field.Rat
import LevelDB.Compaction.Inputs

namespace LevelDB

open List Option

variable {K V : Type} [LinearOrder K]

/-! ## Versions with their statistics -/

/-- How `double` rounds. -/
structure Rounding where
  round : ℚ → ℚ
  round_zero : round 0 = 0

def kL0CompactionTrigger : Nat := 4

def maxBytesForLevel (level : Nat) : ℚ := 10 * 1048576 * 10 ^ (level - 1)

/-- `class Version` with what `PickCompaction` reads of it. -/
structure VersionStats (K : Type) where
  version : Version K
  fileToCompact : Option (FileMetaData K)
  fileToCompactLevel : Int
  compactionScore : ℚ
  compactionLevel : Int

/-- `Version::Version`, with the given files. -/
def VersionStats.new (v : Version K) : VersionStats K := ⟨v, none, -1, -1, -1⟩

/-- The score of a level in `Finalize`. -/
def levelScore (r : Rounding) (v : Version K) (level : Nat) : ℚ :=
  if level = 0 then r.round ((v.files 0).length / kL0CompactionTrigger)
  else r.round (r.round (totalFileSize (v.files level)) / maxBytesForLevel level)

def finalize (r : Rounding) (s : VersionStats K) : VersionStats K :=
  let best := (List.range (kNumLevels - 1)).foldl (fun (best : Int × ℚ) level =>
    if best.2 < levelScore r s.version level then (level, levelScore r s.version level) else best)
    (-1, -1)
  { s with compactionLevel := best.1, compactionScore := best.2 }

/-! ## Lookups that charge files -/

namespace Version

/-- `ForEachOverlapping`, with the levels. -/
def visited (v : Version K) (userKey : K) (internalKey : InternalKey K) :
    List (Nat × FileMetaData K) :=
  (v.overlappingLevelZero userKey).map (Prod.mk 0) ++
    (List.range' 1 (kNumLevels - 1)).filterMap fun level =>
      (v.overlappingInLevel level userKey internalKey).map (Prod.mk level)

/-- Whether `match_func` of `Version::Get` stops at a file. -/
def getStops (tableCache : TableCacheGet K V) (userKey : K) (internalKey : InternalKey K)
    (f : FileMetaData K) : Bool :=
  match tableCache f.number internalKey with
  | .error _ => true
  | .ok none => false
  | .ok (some e) =>
    match parseInternalKey e.key with
    | none => true
    | some p => decide (p.userKey = userKey)

/-- `match_func` of `Version::Get` over the visited files: `last_file_read` and
    `stats->seek_file` with their levels. -/
def getStats (stops : FileMetaData K → Bool) :
    Option (Nat × FileMetaData K) → Option (Nat × FileMetaData K) →
      List (Nat × FileMetaData K) → Option (Nat × FileMetaData K)
  | _, seekFile, [] => seekFile
  | lastFileRead, seekFile, f :: rest =>
    let seekFile := if seekFile.isNone && lastFileRead.isSome then lastFileRead else seekFile
    if stops f.2 then seekFile else getStats stops (some f) seekFile rest

/-- `match_func` of `Version::RecordReadSample`: the first file, if there is a second one. -/
def sampleStats : List (Nat × FileMetaData K) → Option (Nat × FileMetaData K)
  | f :: _ :: _ => some f
  | _ => none

end Version

/-- `Version::UpdateStats`; `allowedSeeks` is that of the charged file. -/
def VersionStats.updateStats (s : VersionStats K) (allowedSeeks : Int) :
    Option (Nat × FileMetaData K) → VersionStats K
  | none => s
  | some (level, f) =>
    if allowedSeeks - 1 ≤ 0 ∧ s.fileToCompact = none then
      { s with fileToCompact := some f, fileToCompactLevel := level }
    else s

/-- `Version::Get` and `UpdateStats`, as `DBImpl::Get` calls them. -/
def VersionStats.get (s : VersionStats K) (tableCache : TableCacheGet K V) (k : K) (seq : Nat)
    (allowedSeeks : Int) : VersionStats K :=
  s.updateStats allowedSeeks (Version.getStats (Version.getStops tableCache k (lookupKey k seq))
    none none (s.version.visited k (lookupKey k seq)))

def VersionStats.recordReadSample (s : VersionStats K) (internalKey : InternalKey K)
    (allowedSeeks : Int) : VersionStats K :=
  match parseInternalKey internalKey with
  | none => s
  | some ikey =>
    s.updateStats allowedSeeks (Version.sampleStats (s.version.visited ikey.userKey internalKey))

/-! ## Picking with checked indices -/

/-- An index outside of `files_` or of a level. -/
inductive IndexFault where
  | level (level : Int)
  | emptyLevel
  deriving DecidableEq, Repr

/-- `files_[level]`. -/
def Version.filesAt (v : Version K) (level : Int) : Except IndexFault (List (FileMetaData K)) :=
  if 0 ≤ level ∧ level < kNumLevels then .ok (v.files level.toNat) else .error (.level level)

/-- `SetupOtherInputs`, which reads `files_` at the level and the next one. -/
def Version.trySetupOtherInputs [Inhabited K] (v : Version K) (maxFileSize : Nat) (level : Int)
    (picked : List (FileMetaData K)) : Except IndexFault (Compaction K) :=
  (v.filesAt level).bind fun _ => (v.filesAt (level + 1)).bind fun _ =>
    .ok (v.setupOtherInputs maxFileSize level.toNat picked)

/-- The last part of `PickCompaction`. -/
def Version.tryPick [Inhabited K] (v : Version K) (maxFileSize : Nat) (level : Int)
    (picked : List (FileMetaData K)) : Except IndexFault (Option (Compaction K)) :=
  let range := getRange picked
  let picked := if level = 0 then v.getOverlappingInputs 0 (some range.1) (some range.2) else picked
  (v.trySetupOtherInputs maxFileSize level picked).map some

/-- `VersionSet::PickCompaction` on a current version. -/
def VersionStats.tryPickCompaction [Inhabited K] (s : VersionStats K) (maxFileSize : Nat)
    (compactPointer : Nat → Option (InternalKey K)) : Except IndexFault (Option (Compaction K)) :=
  if 1 ≤ s.compactionScore then
    (s.version.filesAt s.compactionLevel).bind fun files =>
      match files.find? fun f =>
        (compactPointer s.compactionLevel.toNat).all fun p => decide (p < f.largest) with
      | some f => s.version.tryPick maxFileSize s.compactionLevel [f]
      | none =>
        match files.head? with
        | some f => s.version.tryPick maxFileSize s.compactionLevel [f]
        | none => .error .emptyLevel
  else
    match s.fileToCompact with
    | some f => s.version.tryPick maxFileSize s.fileToCompactLevel [f]
    | none => .ok none

/-! ## Runs -/

/-- Calls on the versions of a version set, which are given by their place in the order in which
    they were appended. -/
inductive StatsEvent (K V : Type) where
  | get (place : Nat) (tableCache : TableCacheGet K V) (k : K) (seq : Nat) (allowedSeeks : Int)
  | sample (place : Nat) (internalKey : InternalKey K) (allowedSeeks : Int)
  | append (v : Version K)

/-- One call. `LogAndApply` and `Recover` finalize a version before they append it. -/
def statsStep (r : Rounding) (versions : List (VersionStats K)) :
    StatsEvent K V → List (VersionStats K)
  | .get place tableCache k seq allowedSeeks =>
    versions.modify place fun s => s.get tableCache k seq allowedSeeks
  | .sample place internalKey allowedSeeks =>
    versions.modify place fun s => s.recordReadSample internalKey allowedSeeks
  | .append v => versions ++ [finalize r (.new v)]

def statsRun (r : Rounding) (events : List (StatsEvent K V)) : List (VersionStats K) :=
  events.foldl (statsStep r) [.new ⟨fun _ => [], Version.nil_beyond⟩]

/-! ## The charged file -/

section Visited

variable {v : Version K} {userKey : K} {internalKey : InternalKey K}

theorem mem_of_mem_visited {p : Nat × FileMetaData K} (h : p ∈ v.visited userKey internalKey) :
    p.2 ∈ v.files p.1 := by
  obtain h | h := mem_append.mp h
  · obtain ⟨f, hf, rfl⟩ := List.mem_map.mp h
    exact mem_of_mem_filter ((mergeSort_perm _ _).mem_iff.mp hf)
  · grind [map_eq_some_iff, Version.overlappingInLevel, Option.some.inj, mem_of_getElem?]

theorem deeper_pairwise (v : Version K) (userKey : K) (internalKey : InternalKey K) :
    ((List.range' 1 (kNumLevels - 1)).filterMap fun level =>
      (v.overlappingInLevel level userKey internalKey).map (Prod.mk level)).Pairwise
        fun p q => p.1 < q.1 := by
  grind [pairwise_lt_range', map_eq_some_iff]

theorem visited_first {p q : Nat × FileMetaData K} {rest : List (Nat × FileMetaData K)}
    (h : v.visited userKey internalKey = p :: q :: rest) : p.1 + 1 < kNumLevels := by
  have hq : q ∈ v.visited userKey internalKey := by
    rw [h]
    exact mem_cons_of_mem _ mem_cons_self
  have hqlt := Version.level_lt (mem_of_mem_visited hq)
  unfold Version.visited at h
  cases hzero : v.overlappingLevelZero userKey with
  | nil =>
    rw [hzero, map_nil, nil_append] at h
    have hpairwise := deeper_pairwise v userKey internalKey
    rw [h] at hpairwise
    have hpq := (pairwise_cons.mp hpairwise).1 q mem_cons_self
    omega
  | cons f files =>
    rw [hzero, map_cons, cons_append] at h
    rw [← (List.cons.inj h).1]
    show 0 + 1 < kNumLevels
    decide

end Visited

section GetStats

variable (stops : FileMetaData K → Bool)

omit [LinearOrder K]

theorem getStats_none (f : Nat × FileMetaData K) (rest : List (Nat × FileMetaData K)) :
    Version.getStats stops none none (f :: rest) =
      if stops f.2 then none else Version.getStats stops (some f) none rest := rfl

theorem getStats_charge (p f : Nat × FileMetaData K) (rest : List (Nat × FileMetaData K)) :
    Version.getStats stops (some p) none (f :: rest) =
      if stops f.2 then some p else Version.getStats stops (some f) (some p) rest := rfl

theorem getStats_some (p : Nat × FileMetaData K) (last : Option (Nat × FileMetaData K))
    (files : List (Nat × FileMetaData K)) :
    Version.getStats stops last (some p) files = some p := by
  induction files generalizing last with
  | nil => rfl
  | cons f rest ih =>
    simp_all [Version.getStats, ite_self]

variable {stops}

theorem getStats_first {files : List (Nat × FileMetaData K)} {p : Nat × FileMetaData K}
    (h : Version.getStats stops none none files = some p) : ∃ q rest, files = p :: q :: rest := by
  cases files with
  | nil => cases h
  | cons f rest =>
    rw [getStats_none] at h
    cases hstop : stops f.2 with
    | true =>
      rw [hstop] at h
      cases h
    | false =>
      rw [hstop, if_neg Bool.false_ne_true] at h
      cases rest with
      | nil => cases h
      | cons g rest =>
        rw [getStats_charge, getStats_some, ite_self] at h
        exact ⟨g, rest, by rw [Option.some.inj h]⟩

end GetStats

omit [LinearOrder K] in
theorem sampleStats_first {files : List (Nat × FileMetaData K)} {p : Nat × FileMetaData K}
    (h : Version.sampleStats files = some p) : ∃ q rest, files = p :: q :: rest := by
  match files with
  | [] => cases h
  | [f] => cases h
  | f :: g :: rest =>
    obtain rfl := Option.some.inj h
    exact ⟨g, rest, rfl⟩

/-! ## The best level -/

omit [LinearOrder K] in
theorem levelScore_nil (r : Rounding) {v : Version K} {level : Nat} (h : v.files level = []) :
    levelScore r v level = 0 := by
  unfold levelScore
  split_ifs with h0
  · rw [h0] at h
    rw [h, length_nil, Nat.cast_zero, zero_div, r.round_zero]
  · rw [h]
    show r.round (r.round ((0 : Nat) : ℚ) / _) = 0
    rw [Nat.cast_zero, r.round_zero, zero_div, r.round_zero]

theorem foldl_best (score : Nat → ℚ) (levels : List Nat) (best : Int × ℚ) :
    let last := levels.foldl (fun (best : Int × ℚ) level =>
      if best.2 < score level then ((level : Int), score level) else best) best
    last = best ∨ ∃ level ∈ levels, last = ((level : Int), score level) := by
  induction levels generalizing best with
  | nil => exact Or.inl rfl
  | cons level levels ih =>
    grind

omit [LinearOrder K] in
theorem finalize_spec (r : Rounding) (s : VersionStats K) (h : 1 ≤ (finalize r s).compactionScore) :
    ∃ level : Nat, (finalize r s).compactionLevel = level ∧ level + 1 < kNumLevels ∧
      s.version.files level ≠ [] := by
  obtain heq | ⟨level, hlevel, heq⟩ := foldl_best (levelScore r s.version)
    (List.range (kNumLevels - 1)) (-1, -1)
  · have hscore : (finalize r s).compactionScore = -1 := congrArg Prod.snd heq
    rw [hscore] at h
    exact absurd h (by decide)
  · have hscore : (finalize r s).compactionScore = levelScore r s.version level :=
      congrArg Prod.snd heq
    have hlt := mem_range.mp hlevel
    refine ⟨level, congrArg Prod.fst heq, by omega, ?_⟩
    intro hnil
    rw [hscore, levelScore_nil r hnil] at h
    exact absurd h (by decide)

/-! ## Picking stays in bounds -/

/-- What holds of every version: its charged file is one of its files, and both levels that
    `PickCompaction` may take have a next one. -/
structure VersionStats.InRange (s : VersionStats K) : Prop where
  charged : ∀ f, s.fileToCompact = some f → ∃ level : Nat, s.fileToCompactLevel = level ∧
    level + 1 < kNumLevels ∧ f ∈ s.version.files level
  scored : 1 ≤ s.compactionScore → ∃ level : Nat, s.compactionLevel = level ∧
    level + 1 < kNumLevels ∧ s.version.files level ≠ []

omit [LinearOrder K] in
theorem VersionStats.inRange_new (v : Version K) : (VersionStats.new v).InRange where
  charged := fun _ hf => absurd hf (some_ne_none _).symm
  scored := fun h => absurd h (by show ¬ (1 : ℚ) ≤ -1; decide)

omit [LinearOrder K] in
theorem VersionStats.inRange_finalize (r : Rounding) (v : Version K) :
    (finalize r (.new v)).InRange where
  charged := fun _ hf => absurd hf (some_ne_none _).symm
  scored := finalize_spec r (.new v)

theorem VersionStats.InRange.updateStats {s : VersionStats K} (h : s.InRange) (allowedSeeks : Int)
    {stats : Option (Nat × FileMetaData K)} {userKey : K} {internalKey : InternalKey K}
    (hstats : ∀ p, stats = some p →
      ∃ q rest, s.version.visited userKey internalKey = p :: q :: rest) :
    (s.updateStats allowedSeeks stats).InRange := by
  cases stats with
  | none => exact h
  | some p =>
    obtain ⟨level, f⟩ := p
    obtain ⟨q, rest, hvisited⟩ := hstats (level, f) rfl
    have hmem : f ∈ s.version.files level :=
      mem_of_mem_visited (hvisited ▸ mem_cons_self)
    unfold VersionStats.updateStats
    split_ifs
    · refine ⟨?_, h.scored⟩
      intro g hg
      obtain rfl := Option.some.inj hg
      exact ⟨level, rfl, visited_first hvisited, hmem⟩
    · exact h

theorem VersionStats.InRange.get {s : VersionStats K} (h : s.InRange)
    (tableCache : TableCacheGet K V) (k : K) (seq : Nat) (allowedSeeks : Int) :
    (s.get tableCache k seq allowedSeeks).InRange :=
  h.updateStats allowedSeeks fun _ hp => getStats_first hp

theorem VersionStats.InRange.recordReadSample {s : VersionStats K} (h : s.InRange)
    (internalKey : InternalKey K) (allowedSeeks : Int) :
    (s.recordReadSample internalKey allowedSeeks).InRange := by
  unfold VersionStats.recordReadSample
  cases parseInternalKey internalKey with
  | none => exact h
  | some ikey => exact h.updateStats allowedSeeks fun _ hp => sampleStats_first hp

theorem statsStep_inRange {r : Rounding} {versions : List (VersionStats K)}
    (h : ∀ s ∈ versions, s.InRange) (event : StatsEvent K V) :
    ∀ s ∈ statsStep r versions event, s.InRange := by
  have hmodify : ∀ (place : Nat) (f : VersionStats K → VersionStats K),
      (∀ s : VersionStats K, s.InRange → (f s).InRange) →
      ∀ s ∈ versions.modify place f, s.InRange := by
    intro place f hf s hs
    obtain ⟨i, hi, rfl⟩ := getElem_of_mem hs
    rw [getElem_modify]
    split_ifs
    · exact hf _ (h _ (getElem_mem _))
    · exact h _ (getElem_mem _)
  cases event with
  | get place tableCache k seq allowedSeeks =>
    exact hmodify place _ fun s hs => hs.get tableCache k seq allowedSeeks
  | sample place internalKey allowedSeeks =>
    exact hmodify place _ fun s hs => hs.recordReadSample internalKey allowedSeeks
  | append v =>
    intro s hs
    obtain hs | hs := mem_append.mp hs
    · exact h s hs
    · rw [mem_singleton.mp hs]
      exact VersionStats.inRange_finalize r v

theorem statsRun_inRange (r : Rounding) (events : List (StatsEvent K V)) :
    ∀ s ∈ statsRun r events, s.InRange := by
  unfold statsRun
  generalize hinit : [VersionStats.new (⟨fun _ => [], fun _ _ => rfl⟩ : Version K)] = versions
  have hversions : ∀ s ∈ versions, s.InRange := by
    intro s hs
    rw [← hinit] at hs
    rw [mem_singleton.mp hs]
    exact VersionStats.inRange_new _
  clear hinit
  induction events generalizing versions with
  | nil => exact hversions
  | cons event events ih => exact ih _ (statsStep_inRange hversions event)

section Picks

variable [Inhabited K] {v : Version K} {level : Nat}

omit [LinearOrder K] [Inhabited K] in
theorem filesAt_eq (v : Version K) (h : level < kNumLevels) :
    v.filesAt (level : Int) = .ok (v.files level) := by
  unfold Version.filesAt
  rw [if_pos ⟨Int.natCast_nonneg level, by exact_mod_cast h⟩, Int.toNat_natCast]

theorem tryPick_eq (maxFileSize : Nat) (compactPointer : Nat → Option (InternalKey K))
    (reason : Version.CompactionReason K)
    (hlt : (v.pickFile compactPointer reason).1 + 1 < kNumLevels) :
    v.tryPick maxFileSize ((v.pickFile compactPointer reason).1 : Int)
        (v.pickFile compactPointer reason).2 =
      .ok (some (v.pickCompaction maxFileSize compactPointer reason)) := by
  unfold Version.tryPick Version.trySetupOtherInputs Version.pickCompaction
  generalize v.pickFile compactPointer reason = picked at hlt ⊢
  have hnext : ((picked.1 : Int) + 1) = ((picked.1 + 1 : Nat) : Int) := rfl
  rw [hnext, filesAt_eq v (by omega), filesAt_eq v hlt]
  have hzero : ((picked.1 : Int) = 0) = (picked.1 = 0) := propext Int.natCast_eq_zero
  simp only [hzero]
  rfl

theorem tryPick_size (hlt : level + 1 < kNumLevels) (hne : v.files level ≠ []) (maxFileSize : Nat)
    (compactPointer : Nat → Option (InternalKey K)) :
    (match (v.files level).find? fun f =>
        (compactPointer level).all fun p => decide (p < f.largest) with
      | some f => v.tryPick maxFileSize (level : Int) [f]
      | none =>
        match (v.files level).head? with
        | some f => v.tryPick maxFileSize (level : Int) [f]
        | none => .error .emptyLevel) =
      .ok (some (v.pickCompaction maxFileSize compactPointer (.size level))) := by
  have heq := tryPick_eq (v := v) maxFileSize compactPointer (.size level) hlt
  unfold Version.pickFile at heq
  dsimp only at heq
  cases hfind : (v.files level).find? fun f =>
      (compactPointer level).all fun p => decide (p < f.largest) with
  | some f =>
    rw [hfind] at heq
    exact heq
  | none =>
    rw [hfind, head?_eq_some_head hne] at heq
    rw [head?_eq_some_head hne]
    exact heq

end Picks

/-- In every run of lookups, read samples and new versions, the file charged with seeks is a file
    of its version at its level, and `PickCompaction` indexes `files_` in bounds, takes no file of
    an empty level, and returns a compaction of a level that has a next one. -/
theorem pickCompaction_in_range [Inhabited K] (r : Rounding) (events : List (StatsEvent K V)) :
    ∀ s ∈ statsRun r events,
      (∀ f, s.fileToCompact = some f → ∃ level : Nat, s.fileToCompactLevel = level ∧
        level + 1 < kNumLevels ∧ f ∈ s.version.files level) ∧
      ∀ (maxFileSize : Nat) (compactPointer : Nat → Option (InternalKey K)),
        ∃ picked, s.tryPickCompaction maxFileSize compactPointer = .ok picked ∧
          ∀ c ∈ picked, c.level + 1 < kNumLevels ∧ Picked s.version c := by
  intro s hs
  have hrange := statsRun_inRange r events s hs
  refine ⟨hrange.charged, fun maxFileSize compactPointer => ?_⟩
  unfold VersionStats.tryPickCompaction
  split_ifs with hscore
  · obtain ⟨level, hlevel, hlt, hne⟩ := hrange.scored hscore
    rw [hlevel, filesAt_eq s.version (by omega)]
    refine ⟨_, tryPick_size hlt hne maxFileSize compactPointer, fun c hc => ?_⟩
    obtain rfl := Option.some.inj hc
    exact ⟨hlt, .size maxFileSize compactPointer hlt hne⟩
  · cases hfile : s.fileToCompact with
    | none => exact ⟨none, rfl, fun c hc => absurd hc (not_mem_none c)⟩
    | some f =>
      obtain ⟨level, hlevel, hlt, hmem⟩ := hrange.charged f hfile
      rw [hlevel]
      refine ⟨_, tryPick_eq maxFileSize compactPointer (.seek level f) hlt, fun c hc => ?_⟩
      obtain rfl := Option.some.inj hc
      exact ⟨hlt, .seek maxFileSize compactPointer hlt hmem⟩

theorem pickCompaction_in_range_stacked :
    ∃ s ∈ statsRun (V := Unit) ⟨id, rfl⟩ [.append stacked, .get 1 (fun _ _ => .ok none) 5 100 1],
      s.fileToCompact = some ⟨6, 10, ⟨3, 17⟩, ⟨6, 17⟩⟩ ∧
      (∃ level : Nat, s.fileToCompactLevel = level ∧ level + 1 < kNumLevels ∧
        ⟨6, 10, ⟨3, 17⟩, ⟨6, 17⟩⟩ ∈ s.version.files level) ∧
      ∃ picked, s.tryPickCompaction 2097152 (fun _ => none) = .ok picked ∧
        ∀ c ∈ picked, c.level + 1 < kNumLevels ∧ Picked s.version c := by
  let events : List (StatsEvent Nat Unit) :=
    [.append stacked, .get 1 (fun _ _ => .ok none) 5 100 1]
  have hcharged : (statsRun ⟨id, rfl⟩ events)[1]?.bind VersionStats.fileToCompact =
    some ⟨6, 10, ⟨3, 17⟩, ⟨6, 17⟩⟩ := by decide +kernel
  obtain ⟨s, hs, hcharged⟩ := bind_eq_some_iff.mp hcharged
  have hmem := mem_of_getElem? hs
  obtain ⟨hfile, hpick⟩ := pickCompaction_in_range ⟨id, rfl⟩ events s hmem
  exact ⟨s, hmem, hcharged, hfile _ hcharged, hpick 2097152 fun _ => none⟩

end LevelDB
