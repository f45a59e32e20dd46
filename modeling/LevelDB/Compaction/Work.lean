/-
  The work of a compaction (`DBImpl::DoCompactionWork`, `db/db_impl.cc`), its input iterator
  (`VersionSet::MakeInputIterator`) and the edit `BackgroundCompaction` applies.

  A forward pass over an iterator is a `Scan`. Table and block iterators may stop early with an
  error (`TableFault`); the two-level iterator then goes on with the next block and remembers the
  first error. What else can go wrong around the loop is in `CompactionEnv`.
-/
import Mathlib.Data.List.TakeWhile
import LevelDB.Lib.Merge
import LevelDB.Version.Builder
import LevelDB.Compaction.Inputs

namespace LevelDB

open List Option SortedList

variable {K V : Type} [LinearOrder K]

/-! ## Input -/

/-- What a forward pass over an iterator yields, and its `status()` at the end (`none` is
    OK). -/
structure Scan (K V : Type) where
  entries : List (Entry K V)
  status : Option Status

/-- Where reading a table fails: opening it, after some blocks of the index, or after some
    entries of a block. -/
structure TableFault where
  openError : Option Status := none
  indexError : Option (Nat × Status) := none
  blockError : Nat → Option (Nat × Status) := fun _ => none

def DataBlock.scan (b : DataBlock K V) : Option (Nat × Status) → Scan K V
  | none => ⟨b.entries, none⟩
  | some (n, s) => ⟨b.entries.take n, some s⟩

/-- `TwoLevelIterator`: the parts one after the other, and the first error. -/
def twoLevelScan (parts : List (Scan K V)) (indexStatus : Option Status) : Scan K V where
  entries := parts.flatMap Scan.entries
  status := (parts.findSome? Scan.status).or indexStatus

/-- `TableCache::NewIterator`. -/
def Table.scan (t : Table K V) (fault : TableFault) : Scan K V :=
  match fault.openError with
  | some s => ⟨[], some s⟩
  | none =>
    let blocks := match fault.indexError with
      | none => t.blocks
      | some (n, _) => t.blocks.take n
    twoLevelScan (blocks.mapIdx fun i b => b.scan (fault.blockError i))
      (fault.indexError.map Prod.snd)

/-- `NewMergingIterator`. -/
def mergingScan (children : List (Scan K V)) : Scan K V where
  entries := Merge.mergeAll Entry.key (children.map Scan.entries)
  status := children.findSome? Scan.status

/-- The children for the inputs of one of the two levels: a table each at level 0, otherwise
    one concatenation. -/
def levelScans (level : Nat) (files : List (Scan K V)) : List (Scan K V) :=
  if level = 0 then files else if files.isEmpty then [] else [twoLevelScan files none]

def makeInputIterator (store : TableStore K V) (faults : Nat → TableFault) (c : Compaction K) :
    Scan K V :=
  let scanFile := fun f : FileMetaData K => (store f.number).scan (faults f.number)
  mergingScan (levelScans c.level (c.inputs0.map scanFile) ++
    levelScans (c.level + 1) (c.inputs1.map scanFile))

/-! ## The drop rule -/

/-- The smallest sequence number a reader may use: the oldest of the live snapshots, which
    are kept in order, or the last sequence. -/
def smallestSnapshot (snapshots : List Nat) (lastSequence : Nat) : Nat :=
  snapshots.head?.getD lastSequence

/-- The part of `IsBaseLevelForKey` for one level: `level_ptrs_[lvl]` moves past the files
    that end before the key, and then the file there decides. -/
def baseLevelStep (files : List (FileMetaData K)) (ptr : Nat) (k : K) : Nat × Bool :=
  let ptr := ptr + ((files.drop ptr).takeWhile fun f => decide (f.largest.userKey < k)).length
  (ptr, (files[ptr]?.map fun f => decide (f.smallest.userKey ≤ k)).getD false)

/-- The loop of `IsBaseLevelForKey` over the given levels. -/
def baseLevelLoop (v : Version K) (k : K) : List Nat → (Nat → Nat) → (Nat → Nat) × Bool
  | [], ptrs => (ptrs, true)
  | lvl :: rest, ptrs =>
    let r := baseLevelStep (v.files lvl) (ptrs lvl) k
    let ptrs := Function.update ptrs lvl r.1
    if r.2 then (ptrs, false) else baseLevelLoop v k rest ptrs

/-- `Compaction::IsBaseLevelForKey`, with `level_ptrs_`. -/
def isBaseLevelForKey (v : Version K) (level : Nat) (ptrs : Nat → Nat) (k : K) :
    (Nat → Nat) × Bool :=
  baseLevelLoop v k (List.range' (level + 2) (kNumLevels - (level + 2))) ptrs

/-- `current_user_key` with `has_current_user_key`, `last_sequence_for_key`, and the
    pointers of `IsBaseLevelForKey`. -/
structure DropState (K : Type) where
  currentUserKey : Option K
  lastSequenceForKey : Nat
  levelPtrs : Nat → Nat

def DropState.init : DropState K := ⟨none, kMaxSequenceNumber, fun _ => 0⟩

def dropEntry (v : Version K) (level snap : Nat) (st : DropState K) (key : InternalKey K) :
    DropState K × Bool :=
  match parseInternalKey key with
  | none => ({ st with currentUserKey := none, lastSequenceForKey := kMaxSequenceNumber }, false)
  | some ikey =>
    let st := if st.currentUserKey = some ikey.userKey then st
      else { st with currentUserKey := some ikey.userKey
                     lastSequenceForKey := kMaxSequenceNumber }
    let r := if st.lastSequenceForKey ≤ snap then (st.levelPtrs, true)
      else if ikey.type = .deletion ∧ ikey.sequence ≤ snap then
        isBaseLevelForKey v level st.levelPtrs ikey.userKey
      else (st.levelPtrs, false)
    ({ st with lastSequenceForKey := ikey.sequence, levelPtrs := r.1 }, r.2)

/-! ## The loop -/

/-- The variables of the loop: what has been added to the builder, and `meta`. `nonEmpty` is
    the temporary use of `meta.file_size`. -/
structure WorkState (K V : Type) where
  drop : DropState K
  output : List (Entry K V)
  smallest : InternalKey K
  largest : InternalKey K
  nonEmpty : Bool

def WorkState.init [Inhabited K] : WorkState K V :=
  { drop := .init, output := [], smallest := .cleared, largest := .cleared, nonEmpty := false }

def compactEntry (v : Version K) (level snap : Nat) (st : WorkState K V) (e : Entry K V) :
    WorkState K V :=
  match dropEntry v level snap st.drop e.key with
  | (drop, true) => { st with drop := drop }
  | (drop, false) =>
    { drop := drop
      output := st.output ++ [e]
      smallest := if st.nonEmpty then st.smallest else e.key
      largest := e.key
      nonEmpty := true }

/-- What the compaction meets: failing reads, the number of turns after which
    `shutting_down_` is seen, errors of the file operations and of `LogAndApply`, and the size
    of the finished file, which has at least its footer. -/
structure CompactionEnv where
  faults : Nat → TableFault := fun _ => {}
  shutdownAfter : Option Nat := none
  newFileError : Option Status := none
  finishError : Option Status := none
  syncError : Option Status := none
  closeError : Option Status := none
  applyError : Option Status := none
  fileSize : Nat := 1
  fileSize_pos : 0 < fileSize := by decide

namespace CompactionEnv

def consumed (env : CompactionEnv) (entries : List (Entry K V)) : List (Entry K V) :=
  match env.shutdownAfter with
  | none => entries
  | some n => entries.take n

omit [LinearOrder K] in
theorem consumed_sublist (env : CompactionEnv) (entries : List (Entry K V)) :
    (env.consumed entries).Sublist entries := by
  unfold consumed
  split
  · exact List.Sublist.refl _
  · exact take_sublist _ _

def Exhausts (env : CompactionEnv) (input : Scan K V) : Prop :=
  env.consumed input.entries = input.entries ∧ input.status = none

def outputError (env : CompactionEnv) : Option Status :=
  env.finishError.or (env.syncError.or env.closeError)

end CompactionEnv

/-- `DBImpl::DoCompactionWork`: an error, or the file `AddFile` is called for, if any, with
    the entries of its table. -/
def doCompactionWork [Inhabited K] (v : Version K) (store : TableStore K V) (c : Compaction K)
    (snap number : Nat) (env : CompactionEnv) :
    Except Status (Option (FileMetaData K × List (Entry K V))) :=
  let input := makeInputIterator store env.faults c
  if input.entries.isEmpty then .ok none
  else
    match env.newFileError with
    | some s => .error s
    | none =>
      let st := (env.consumed input.entries).foldl (compactEntry v c.level snap) .init
      match env.outputError with
      | some s => .error s
      | none =>
        .ok (if 0 < env.fileSize then
          some (⟨number, env.fileSize, st.smallest, st.largest⟩, st.output) else none)

/-- The edit of the compaction once `DoCompactionWork` has returned OK: the output is added,
    all inputs are removed. -/
def compactionEdit (c : Compaction K) (output : Option (FileMetaData K)) : VersionEdit K :=
  let edit : VersionEdit K := { compactPointers := [(c.level, c.compactPointer)] }
  let edit := output.elim edit (edit.addFile (c.level + 1))
  let edit := c.inputs0.foldl (fun e f => e.removeFile c.level f.number) edit
  c.inputs1.foldl (fun e f => e.removeFile (c.level + 1) f.number) edit

/-- `BackgroundCompaction` from `DoCompactionWork` on: the edit that `LogAndApply` has
    installed, with the output, or the background error. -/
def compactAndApply [Inhabited K] (v : Version K) (store : TableStore K V) (c : Compaction K)
    (snap number : Nat) (env : CompactionEnv) :
    Except Status (VersionEdit K × Option (FileMetaData K × List (Entry K V))) :=
  match doCompactionWork v store c snap number env with
  | .error s => .error s
  | .ok r =>
    match env.applyError with
    | some s => .error s
    | none => .ok (compactionEdit c (r.map Prod.fst), r)

/-! ## The base level test -/

/-- Every file that `level_ptrs_` has passed ends before `k`. -/
def PtrsBelow (v : Version K) (ptrs : Nat → Nat) (k : K) : Prop :=
  ∀ lvl, ∀ f ∈ (v.files lvl).take (ptrs lvl), f.largest.userKey < k

theorem PtrsBelow.mono {v : Version K} {ptrs : Nat → Nat} {k k' : K} (h : PtrsBelow v ptrs k)
    (hk : k ≤ k') : PtrsBelow v ptrs k' :=
  fun lvl f hf => (h lvl f hf).trans_le hk

/-- The user key lies in the range of `f`. -/
def FileMetaData.Covers (f : FileMetaData K) (k : K) : Prop :=
  f.smallest.userKey ≤ k ∧ k ≤ f.largest.userKey

theorem baseLevelStep_spec {files : List (FileMetaData K)} (hsort : SortedDisjoint files)
    (hr : ∀ f ∈ files, f.smallest ≤ f.largest) {ptr : Nat} {k : K}
    (h : ∀ f ∈ files.take ptr, f.largest.userKey < k) :
    (∀ f ∈ files.take (baseLevelStep files ptr k).1, f.largest.userKey < k) ∧
    ((baseLevelStep files ptr k).2 = true ↔ ∃ f ∈ files, f.Covers k) := by
  unfold baseLevelStep
  dsimp only
  generalize htw : (files.drop ptr).takeWhile (fun f => decide (f.largest.userKey < k)) = passed
  generalize hdw : (files.drop ptr).dropWhile (fun f => decide (f.largest.userKey < k)) = ahead
  have hdrop : files.drop ptr = passed ++ ahead := by
    rw [← htw, ← hdw, takeWhile_append_dropWhile]
  have htake : files.take (ptr + passed.length) = files.take ptr ++ passed := by
    rw [take_add, hdrop, take_left']
    rfl
  have hpassed : ∀ f ∈ passed, f.largest.userKey < k := by
    intro f hf
    rw [← htw] at hf
    simpa using mem_takeWhile_imp hf
  have hbefore : ∀ f ∈ files.take (ptr + passed.length), f.largest.userKey < k := by
    intro f hf
    rw [htake] at hf
    obtain hf | hf := mem_append.mp hf
    · exact h f hf
    · exact hpassed f hf
  refine ⟨hbefore, ?_⟩
  have hahead : files.drop (ptr + passed.length) = ahead := by
    rw [← drop_drop, hdrop, drop_left']
    rfl
  have hmem : ∀ f ∈ files, f.Covers k → f ∈ ahead := by
    intro f hf hcov
    rw [← List.take_append_drop (ptr + passed.length) files, hahead] at hf
    obtain hf | hf := mem_append.mp hf
    · exact absurd hcov.2 (not_le.mpr (hbefore f hf))
    · exact hf
  have hget : files[ptr + passed.length]? = ahead.head? := by
    rw [← head?_drop, hahead]
  rw [hget]
  cases ahead with
  | nil =>
    refine iff_of_false (by simp) ?_
    rintro ⟨f, hf, hcov⟩
    exact absurd (hmem f hf hcov) not_mem_nil
  | cons x rest =>
    have hxmem : x ∈ files := mem_of_getElem? hget
    have hxk : k ≤ x.largest.userKey := by
      have hhead := head?_dropWhile_not (fun f => decide (f.largest.userKey < k))
        (files.drop ptr)
      rw [hdw] at hhead
      simpa using hhead
    have hdecide : (((x :: rest).head?.map fun f => decide (f.smallest.userKey ≤ k)).getD false =
        true) ↔ x.smallest.userKey ≤ k := by simp
    rw [hdecide]
    constructor
    · exact fun hle => ⟨x, hxmem, hle, hxk⟩
    · rintro ⟨f, hf, hcov⟩
      obtain rfl | hf' := mem_cons.mp (hmem f hf hcov)
      · exact hcov.1
      · -- later files start after `x`
        have hsort' : SortedDisjoint (x :: rest) := by
          rw [← hahead]
          exact hsort.sublist (drop_sublist _ _)
        have hxf := (pairwise_cons.mp hsort').1 f hf'
        exact (InternalKey.userKey_mono ((hr x hxmem).trans hxf.le)).trans hcov.1

theorem baseLevelLoop_spec {v : Version K} {k : K} {levels : List Nat}
    (hsort : ∀ lvl ∈ levels, SortedDisjoint (v.files lvl))
    (hr : ∀ lvl ∈ levels, ∀ f ∈ v.files lvl, f.smallest ≤ f.largest) :
    ∀ {ptrs : Nat → Nat}, PtrsBelow v ptrs k →
      PtrsBelow v (baseLevelLoop v k levels ptrs).1 k ∧
      ((baseLevelLoop v k levels ptrs).2 = true ↔
        ∀ lvl ∈ levels, ∀ f ∈ v.files lvl, ¬ f.Covers k) := by
  induction levels with
  | nil => intro ptrs h; exact ⟨h, by simp [baseLevelLoop]⟩
  | cons lvl rest ih =>
    intro ptrs h
    obtain ⟨hbelow, hcovers⟩ := baseLevelStep_spec (hsort lvl mem_cons_self)
      (hr lvl mem_cons_self) (h lvl)
    have hnext : PtrsBelow v (Function.update ptrs lvl
        (baseLevelStep (v.files lvl) (ptrs lvl) k).1) k := by
      intro l f hf
      by_cases hl : l = lvl
      · subst hl
        rw [Function.update_self] at hf
        exact hbelow f hf
      · rw [Function.update_of_ne hl] at hf
        exact h l f hf
    unfold baseLevelLoop
    dsimp only
    split_ifs with hb
    · simp_all
    · grind

theorem isBaseLevelForKey_spec {v : Version K}
    (hsort : ∀ lvl, 2 ≤ lvl → SortedDisjoint (v.files lvl))
    (hr : ∀ lvl, 2 ≤ lvl → ∀ f ∈ v.files lvl, f.smallest ≤ f.largest)
    (level : Nat) {ptrs : Nat → Nat} {k : K} (h : PtrsBelow v ptrs k) :
    PtrsBelow v (isBaseLevelForKey v level ptrs k).1 k ∧
    ((isBaseLevelForKey v level ptrs k).2 = true ↔
      ∀ lvl, level + 2 ≤ lvl → ∀ f ∈ v.files lvl, ¬ f.Covers k) := by
  unfold isBaseLevelForKey
  have hlevels : ∀ lvl ∈ List.range' (level + 2) (kNumLevels - (level + 2)), 2 ≤ lvl := by
    intro lvl hl
    have := mem_range'_1.mp hl
    omega
  obtain ⟨hbelow, hanswer⟩ := baseLevelLoop_spec (fun lvl hl => hsort lvl (hlevels lvl hl))
    (fun lvl hl => hr lvl (hlevels lvl hl)) h
  refine ⟨hbelow, hanswer.trans ⟨?_, ?_⟩⟩
  · intro hnone lvl hl f hf
    have hlt := Version.level_lt hf
    exact hnone lvl (mem_range'_1.mpr (by omega)) f hf
  · intro hnone lvl hl
    exact hnone lvl (mem_range'_1.mp hl).1

/-- The answers of `IsBaseLevelForKey` to one key after the other. -/
def baseLevelRun (v : Version K) (level : Nat) : (Nat → Nat) → List K → List Bool
  | _, [] => []
  | ptrs, k :: keys =>
    let r := isBaseLevelForKey v level ptrs k
    r.2 :: baseLevelRun v level r.1 keys

theorem baseLevelRun_spec {v : Version K}
    (hsort : ∀ lvl, 2 ≤ lvl → SortedDisjoint (v.files lvl))
    (hr : ∀ lvl, 2 ≤ lvl → ∀ f ∈ v.files lvl, f.smallest ≤ f.largest)
    (level : Nat) {keys : List K} (hkeys : keys.Pairwise (· ≤ ·)) :
    ∀ {ptrs : Nat → Nat}, (∀ k ∈ keys, PtrsBelow v ptrs k) →
      List.Forall₂ (fun k answer => answer = true ↔
          ∀ lvl, level + 2 ≤ lvl → ∀ f ∈ v.files lvl, ¬ f.Covers k)
        keys (baseLevelRun v level ptrs keys) := by
  induction keys with
  | nil => exact fun _ => List.Forall₂.nil
  | cons k keys ih =>
    intro ptrs h
    obtain ⟨hle, hkeys⟩ := pairwise_cons.mp hkeys
    obtain ⟨hbelow, hanswer⟩ := isBaseLevelForKey_spec hsort hr level (h k mem_cons_self)
    exact List.Forall₂.cons hanswer (ih hkeys fun k' hk' => hbelow.mono (hle k' hk'))

/-- The pointers give the same answers as a scan of all files, for keys that do not decrease. -/
theorem isBaseLevelForKey_scan {v : Version K}
    (hsort : ∀ lvl, 2 ≤ lvl → SortedDisjoint (v.files lvl))
    (hr : ∀ lvl, 2 ≤ lvl → ∀ f ∈ v.files lvl, f.smallest ≤ f.largest)
    (level : Nat) {keys : List K} (hkeys : keys.Pairwise (· ≤ ·)) :
    List.Forall₂ (fun k answer => answer = true ↔ ∀ lvl, level + 2 ≤ lvl → ∀ f ∈ v.files lvl,
        ¬ (f.smallest.userKey ≤ k ∧ k ≤ f.largest.userKey))
      keys (baseLevelRun v level (fun _ => 0) keys) :=
  baseLevelRun_spec hsort hr level hkeys fun _ _ _ _ hf => absurd hf not_mem_nil

def threeDeep : Version Nat where
  files
    | 2 => [⟨5, 10, ⟨1, 9⟩, ⟨4, 9⟩⟩, ⟨6, 10, ⟨4, 5⟩, ⟨6, 5⟩⟩]
    | 3 => [⟨2, 10, ⟨8, 1⟩, ⟨9, 1⟩⟩]
    | _ => []
  files_eq_nil
    | 0, _ | 1, _ => rfl
    | 2, h | 3, h => absurd h (by decide)
    | _ + 4, _ => rfl

theorem isBaseLevelForKey_scan_threeDeep :
    List.Forall₂ (fun k answer => answer = true ↔ ∀ lvl, 0 + 2 ≤ lvl → ∀ f ∈ threeDeep.files lvl,
        ¬ (f.smallest.userKey ≤ k ∧ k ≤ f.largest.userKey))
      [0, 4, 4, 7, 9] [true, false, false, true, false] := by
  have hsort : ∀ lvl, 2 ≤ lvl → SortedDisjoint (threeDeep.files lvl)
    | 0, h | 1, h => absurd h (by decide)
    | 2, _ | 3, _ => by unfold SortedDisjoint; decide
    | _ + 4, _ => List.Pairwise.nil
  have hr : ∀ lvl, 2 ≤ lvl → ∀ f ∈ threeDeep.files lvl, f.smallest ≤ f.largest
    | 0, h | 1, h => absurd h (by decide)
    | 2, _ | 3, _ => by decide
    | _ + 4, _ => fun _ hf => absurd hf not_mem_nil
  exact isBaseLevelForKey_scan hsort hr 0 (by decide)

/-! ## What the loop keeps -/

def keptEntries (v : Version K) (level snap : Nat) :
    DropState K → List (Entry K V) → List (Entry K V)
  | _, [] => []
  | st, e :: rest =>
    match dropEntry v level snap st e.key with
    | (st, true) => keptEntries v level snap st rest
    | (st, false) => e :: keptEntries v level snap st rest

/-- The state of the drop rule after the entry `prev`, or at the start. -/
def DropInv (v : Version K) (prev : Option (Entry K V)) (st : DropState K) : Prop :=
  match prev with
  | none => st.currentUserKey = none ∧ ∀ k, PtrsBelow v st.levelPtrs k
  | some p => st.currentUserKey = some p.userKey ∧ st.lastSequenceForKey = p.sequence ∧
      PtrsBelow v st.levelPtrs p.userKey

theorem dropInv_init (v : Version K) : DropInv (V := V) v none DropState.init :=
  ⟨rfl, fun k lvl f hf => by simp [DropState.init] at hf⟩

/-- `prev` has the user key of `e` and is visible at `snap`. -/
def ShadowedBy (snap : Nat) (prev : Option (Entry K V)) (e : Entry K V) : Prop :=
  ∃ p ∈ prev, p.userKey = e.userKey ∧ p.sequence ≤ snap

/-- A deletion visible at `snap`, at the base level for its user key. -/
def ObsoleteDeletion (v : Version K) (level snap : Nat) (e : Entry K V) : Prop :=
  e.IsDeletion ∧ e.sequence ≤ snap ∧ ∀ lvl, level + 2 ≤ lvl → ∀ f ∈ v.files lvl, ¬ f.Covers e.userKey

theorem dropState_current {v : Version K} {snap : Nat} (hsnap : snap < kMaxSequenceNumber)
    {prev : Option (Entry K V)} {st : DropState K} (h : DropInv v prev st) (e : Entry K V) :
    ∃ last, (if st.currentUserKey = some e.userKey then st
      else { st with currentUserKey := some e.userKey
                     lastSequenceForKey := kMaxSequenceNumber }) =
        { st with currentUserKey := some e.userKey, lastSequenceForKey := last } ∧
      (last ≤ snap ↔ ShadowedBy snap prev e) := by
  have hnew : ¬ kMaxSequenceNumber ≤ snap := not_le.mpr hsnap
  cases prev with
  | none =>
    have hcur : ¬ st.currentUserKey = some e.userKey := by rw [h.1]; simp
    refine ⟨kMaxSequenceNumber, if_neg hcur, fun hle => absurd hle hnew, ?_⟩
    intro hs
    obtain ⟨p, hp, -⟩ := hs
    cases hp
  | some p =>
    obtain ⟨hcur, hseq, -⟩ := h
    by_cases hpe : p.userKey = e.userKey
    · refine ⟨p.sequence, ?_, fun hle => ⟨p, rfl, hpe, hle⟩, ?_⟩
      · rw [if_pos (by rw [hcur, hpe]), ← hseq, ← hpe, ← hcur]
      · intro hs
        obtain ⟨q, hq, -, hle⟩ := hs
        obtain rfl := Option.some.inj hq
        exact hle
    · have hne : ¬ st.currentUserKey = some e.userKey := by
        rw [hcur]
        exact fun h => hpe (Option.some.inj h)
      refine ⟨kMaxSequenceNumber, if_neg hne, fun hle => absurd hle hnew, ?_⟩
      intro hs
      obtain ⟨q, hq, hqe, -⟩ := hs
      obtain rfl := Option.some.inj hq
      exact absurd hqe hpe

theorem dropEntry_cases {v : Version K} (hsort : v.LevelsSorted) (hr : v.Ranged) (level : Nat)
    {snap : Nat} (hsnap : snap < kMaxSequenceNumber) {prev : Option (Entry K V)} {st : DropState K}
    (h : DropInv v prev st) {e : Entry K V} (hwf : e.key.WellFormed)
    (hle : ∀ p ∈ prev, p.userKey ≤ e.userKey) :
    ∃ st' drop, dropEntry v level snap st e.key = (st', drop) ∧ DropInv v (some e) st' ∧
      (ShadowedBy snap prev e ∧ drop = true ∨
       ¬ ShadowedBy snap prev e ∧ drop = true ∧ ObsoleteDeletion v level snap e ∨
       ¬ ShadowedBy snap prev e ∧ drop = false) := by
  obtain ⟨ikey, hp, hu, hq, ht⟩ := Entry.parse_of_wellFormed hwf
  have hbelow : PtrsBelow v st.levelPtrs e.userKey := by
    cases prev with
    | none => exact h.2 _
    | some p => exact h.2.2.mono (hle p rfl)
  obtain ⟨last, hst, hshadow⟩ := dropState_current hsnap h e
  unfold dropEntry
  simp only [hp, hu, hst, hq]
  by_cases hsh : last ≤ snap
  · rw [if_pos hsh]
    exact ⟨_, _, rfl, ⟨rfl, rfl, hbelow⟩, Or.inl ⟨hshadow.mp hsh, rfl⟩⟩
  · rw [if_neg hsh]
    have hns : ¬ ShadowedBy snap prev e := fun h => hsh (hshadow.mpr h)
    by_cases hdel : ikey.type = .deletion ∧ e.sequence ≤ snap
    · rw [if_pos hdel]
      obtain ⟨hb, hbase⟩ := isBaseLevelForKey_spec (fun lvl hl => hsort lvl (by omega))
        (fun lvl _ => hr lvl) level hbelow
      refine ⟨_, _, rfl, ⟨rfl, rfl, hb⟩, ?_⟩
      cases hdrop : (isBaseLevelForKey v level st.levelPtrs e.userKey).2 with
      | true => exact Or.inr (Or.inl ⟨hns, rfl, ⟨ikey, hp, hdel.1⟩, hdel.2, hbase.mp hdrop⟩)
      | false => exact Or.inr (Or.inr ⟨hns, rfl⟩)
    · rw [if_neg hdel]
      exact ⟨_, _, rfl, ⟨rfl, rfl, hbelow⟩, Or.inr (Or.inr ⟨hns, rfl⟩)⟩

section Kept

variable {v : Version K} {snap : Nat}

theorem keptEntries_cons (v : Version K) (level snap : Nat) (st : DropState K) (e : Entry K V)
    (l : List (Entry K V)) :
    keptEntries v level snap st (e :: l) =
      match dropEntry v level snap st e.key with
      | (st, true) => keptEntries v level snap st l
      | (st, false) => e :: keptEntries v level snap st l := rfl

theorem keptEntries_sublist (level snap : Nat) (l : List (Entry K V)) :
    ∀ st, (keptEntries v level snap st l).Sublist l := by
  induction l with
  | nil => intro st; exact List.Sublist.refl _
  | cons e l ih =>
    grind [keptEntries, dropEntry]

section

variable (hsort : v.LevelsSorted) (hr : v.Ranged) {level : Nat} (hsnap : snap < kMaxSequenceNumber)
  {l : List (Entry K V)}
include hsort hr hsnap

theorem kept_userKey_ne :
    ∀ {p : Entry K V} {st : DropState K}, DropInv v (some p) st → p.sequence ≤ snap →
      (∀ e ∈ l, e.key.WellFormed) → (p :: l).Pairwise (fun a b => a.key ≤ b.key) →
      ∀ x ∈ keptEntries v level snap st l, x.userKey ≠ p.userKey := by
  induction l with
  | nil => intro p st _ _ _ _ x hx; simp [keptEntries] at hx
  | cons e l ih =>
    intro p st hinv hps hwf hsorted x hx
    obtain ⟨hp, hl⟩ := pairwise_cons.mp hsorted
    have hpe : p.key ≤ e.key := hp e (by simp)
    have hle : p.userKey ≤ e.userKey := InternalKey.userKey_mono hpe
    obtain ⟨st', drop, hdrop, hinv', hcase⟩ := dropEntry_cases hsort hr level hsnap hinv
      (hwf e (by simp)) (by intro q hq; obtain rfl := Option.some.inj hq; exact hle)
    have hwf' := fun y hy => hwf y (mem_cons_of_mem _ hy)
    unfold keptEntries at hx
    rw [hdrop] at hx
    by_cases hu : p.userKey = e.userKey
    · -- `e` is dropped, and it is visible at the snapshot itself
      have hsh : ShadowedBy snap (some p) e := ⟨p, rfl, hu, hps⟩
      have hd : drop = true := by
        obtain h | h | h := hcase
        · exact h.2
        · exact absurd hsh h.1
        · exact absurd hsh h.1
      subst hd
      have hes : e.sequence ≤ snap :=
        (Entry.sequence_le_of_tag_le (Entry.tag_le_of_key_le hu.symm hpe)).trans hps
      rw [hu]
      exact ih hinv' hes hwf' hl x hx
    · -- past the user key of `p`
      have hlt : p.userKey < e.userKey := lt_of_le_of_ne hle hu
      have hmem : x ∈ e :: l := by
        cases drop with
        | true => exact mem_cons_of_mem _ ((keptEntries_sublist level snap l st').subset hx)
        | false =>
          obtain rfl | hx := mem_cons.mp hx
          · simp
          · exact mem_cons_of_mem _ ((keptEntries_sublist level snap l st').subset hx)
      obtain rfl | hmem := mem_cons.mp hmem
      · exact hlt.ne'
      · have := InternalKey.userKey_mono ((pairwise_cons.mp hl).1 x hmem)
        exact (hlt.trans_le this).ne'

theorem mem_kept_or_dropped :
    ∀ {prev : Option (Entry K V)} {st : DropState K}, DropInv v prev st →
      (∀ e ∈ l, e.key.WellFormed) → (prev.toList ++ l).Pairwise (fun a b => a.key ≤ b.key) →
      ∀ {pre post : List (Entry K V)} {e : Entry K V}, l = pre ++ e :: post →
        e ∈ keptEntries v level snap st l ∨
        (∃ p ∈ prev.toList ++ pre, p.userKey = e.userKey ∧ p.sequence ≤ snap) ∨
        (ObsoleteDeletion v level snap e ∧
          ∀ x ∈ keptEntries v level snap st l, x.userKey = e.userKey → x ∈ pre) := by
  induction l with
  | nil => intro prev st _ _ _ pre post e h; simp at h
  | cons y l ih =>
    intro prev st hinv hwf hsorted pre post e hsplit
    have hwf' := fun x hx => hwf x (mem_cons_of_mem _ hx)
    have hle : ∀ p ∈ prev, p.userKey ≤ y.userKey := by
      intro p hp
      obtain rfl := mem_def.mp hp
      exact InternalKey.userKey_mono ((pairwise_cons.mp hsorted).1 y (by simp))
    have hsorted' : (y :: l).Pairwise (fun a b => a.key ≤ b.key) :=
      (pairwise_append.mp hsorted).2.1
    obtain ⟨st', drop, hdrop, hinv', hcase⟩ := dropEntry_cases hsort hr level hsnap hinv
      (hwf y (by simp)) hle
    unfold keptEntries
    rw [hdrop]
    cases pre with
    | nil =>
      obtain ⟨rfl, rfl⟩ := List.cons.inj hsplit
      obtain ⟨⟨p, hp, hu, hs⟩, rfl⟩ | ⟨-, rfl, hobs⟩ | ⟨-, rfl⟩ := hcase
      · obtain rfl := mem_def.mp hp
        exact Or.inr (Or.inl ⟨p, by simp, hu, hs⟩)
      · refine Or.inr (Or.inr ⟨hobs, ?_⟩)
        intro x hx hu
        exact absurd hu (kept_userKey_ne hsort hr hsnap hinv' hobs.2.1 hwf' hsorted' x hx)
      · exact Or.inl (by simp)
    | cons z pre =>
      obtain ⟨rfl, rfl⟩ := List.cons.inj hsplit
      have hrec := ih hinv' hwf' hsorted' rfl
      obtain h | ⟨p, hp, hu, hs⟩ | ⟨hobs, hnone⟩ := hrec
      · left
        cases drop
        · exact mem_cons_of_mem _ h
        · exact h
      · exact Or.inr (Or.inl ⟨p, mem_append_right _ hp, hu, hs⟩)
      · refine Or.inr (Or.inr ⟨hobs, ?_⟩)
        intro x hx hu
        cases drop with
        | true => exact mem_cons_of_mem _ (hnone x hx hu)
        | false =>
          grind

end

end Kept

theorem foldl_compactEntry (v : Version K) (level snap : Nat) (l : List (Entry K V)) :
    ∀ st : WorkState K V,
      (l.foldl (compactEntry v level snap) st).output =
        st.output ++ keptEntries v level snap st.drop l ∧
      (l.foldl (compactEntry v level snap) st).smallest =
        (if st.nonEmpty then st.smallest
         else ((keptEntries v level snap st.drop l).head?.map Entry.key).getD st.smallest) ∧
      (l.foldl (compactEntry v level snap) st).largest =
        ((keptEntries v level snap st.drop l).getLast?.map Entry.key).getD st.largest := by
  induction l with
  | nil => intro st; simp [keptEntries]
  | cons e l ih =>
    intro st
    rw [foldl_cons, keptEntries_cons]
    obtain ⟨ho, hs, hl⟩ := ih (compactEntry v level snap st e)
    rw [ho, hs, hl]
    unfold compactEntry
    cases h : dropEntry v level snap st.drop e.key with
    | mk drop dropped =>
      cases dropped with
      | true => exact ⟨rfl, rfl, rfl⟩
      | false =>
        simp [getLast?_cons]

/-! ## The input iterator -/

section

variable {α β γ : Type*} (p : γ → List β) (h : α → List β) (l : List α)
include p h l

theorem mapIdx_flatMap_sublist : ∀ g : Nat → α → γ, (∀ i a, (p (g i a)).Sublist (h a)) →
      ((l.mapIdx g).flatMap p).Sublist (l.flatMap h) := by
  induction l with
  | nil => intro g _; simp
  | cons a l ih =>
    grind

theorem mapIdx_flatMap_eq :
    ∀ g : Nat → α → γ, (∀ i a, g i a ∈ l.mapIdx g → p (g i a) = h a) →
      (l.mapIdx g).flatMap p = l.flatMap h := by
  induction l with
  | nil => intro g _; rfl
  | cons a l ih =>
    grind

end

theorem Table.scan_sublist (t : Table K V) (fault : TableFault) :
    (t.scan fault).entries.Sublist t.entries := by
  unfold Table.scan
  cases fault.openError with
  | some s => exact nil_sublist _
  | none =>
    have hblock : ∀ (i : Nat) (b : DataBlock K V),
        (b.scan (fault.blockError i)).entries.Sublist b.entries := by
      intro i b
      cases fault.blockError i with
      | none => exact List.Sublist.refl _
      | some p => exact take_sublist _ _
    have hall := fun blocks : List (DataBlock K V) =>
      mapIdx_flatMap_sublist Scan.entries DataBlock.entries blocks
        (fun i b => b.scan (fault.blockError i)) hblock
    cases fault.indexError with
    | none => exact hall t.blocks
    | some p =>
      refine (hall (t.blocks.take p.1)).trans ?_
      unfold Table.entries
      nth_rewrite 2 [← List.take_append_drop p.1 t.blocks]
      rw [flatMap_append]
      exact sublist_append_left _ _

omit [LinearOrder K] in
theorem levelScans_flatten (level : Nat) (files : List (Scan K V)) :
    ((levelScans level files).map Scan.entries).flatten = files.flatMap Scan.entries := by
  unfold levelScans
  split_ifs with h1 h2
  · rfl
  · simp [List.isEmpty_iff.mp h2]
  · simp [twoLevelScan]

omit [LinearOrder K] in
theorem levelScans_status (level : Nat) (files : List (Scan K V)) :
    (levelScans level files).findSome? Scan.status = none ↔ ∀ s ∈ files, s.status = none := by
  rw [findSome?_eq_none_iff]
  unfold levelScans
  split_ifs with h1 h2
  · exact Iff.rfl
  · simp [List.isEmpty_iff.mp h2]
  · simp [twoLevelScan]

theorem Table.scan_entries_of_status {t : Table K V} {fault : TableFault}
    (h : (t.scan fault).status = none) : (t.scan fault).entries = t.entries := by
  unfold Table.scan at h ⊢
  cases ho : fault.openError with
  | some s => rw [ho] at h; cases h
  | none =>
    rw [ho] at h
    dsimp only at h ⊢
    unfold twoLevelScan at h ⊢
    dsimp only at h ⊢
    obtain ⟨hblocks, hindex⟩ := or_eq_none_iff.mp h
    cases hi : fault.indexError with
    | some p => rw [hi] at hindex; cases hindex
    | none =>
      rw [hi] at hblocks
      dsimp only at hblocks ⊢
      unfold Table.entries
      exact mapIdx_flatMap_eq _ _ _ _ (fun i b hib => by
        have := findSome?_eq_none_iff.mp hblocks _ hib
        cases hb : fault.blockError i with
        | none => rfl
        | some p => rw [hb] at this; cases this)

theorem levelScans_sorted {store : TableStore K V} {faults : Nat → TableFault} {level : Nat}
    {files : List (FileMetaData K)} (hdesc : ∀ f ∈ files, Version.Describes f (store f.number))
    (hsorted : 0 < level → SortedDisjoint files) :
    ∀ l ∈ (levelScans level (files.map fun f => (store f.number).scan (faults f.number))).map
      Scan.entries, l.Pairwise fun a b => a.key ≤ b.key := by
  have hone : ∀ f : FileMetaData K,
      ((store f.number).scan (faults f.number)).entries.Pairwise fun a b => a.key < b.key :=
    fun f => (store f.number).sorted.sublist ((store f.number).scan_sublist _)
  intro l hl
  obtain ⟨child, hchild, rfl⟩ := List.mem_map.mp hl
  unfold levelScans at hchild
  split_ifs at hchild with h1 h2
  · obtain ⟨f, -, rfl⟩ := List.mem_map.mp hchild
    exact (hone f).imp fun h => h.le
  · simp at hchild
  · rw [mem_singleton.mp hchild]
    unfold twoLevelScan
    dsimp only
    rw [flatMap_map, pairwise_flatMap]
    refine ⟨fun f _ => (hone f).imp fun h => h.le, ?_⟩
    refine List.Pairwise.imp_of_mem ?_ (hsorted (Nat.pos_of_ne_zero h1))
    intro f g hf hg hfg x hx y hy
    have hx' := ((hdesc f hf).bounds x (((store f.number).scan_sublist _).subset hx)).2
    have hy' := ((hdesc g hg).bounds y (((store g.number).scan_sublist _).subset hy)).1
    exact (hx'.trans_lt (hfg.trans_le hy')).le

section Input

variable {v : Version K} {store : TableStore K V} {c : Compaction K}

section

variable (hint : v.Intact store) (hc : Closed v c) (faults : Nat → TableFault)
include hint hc faults

theorem inputChildren_sorted :
    ∀ l ∈ (levelScans c.level (c.inputs0.map fun f => (store f.number).scan (faults f.number)) ++
        levelScans (c.level + 1) (c.inputs1.map fun f =>
          (store f.number).scan (faults f.number))).map Scan.entries,
      l.Pairwise fun a b => a.key ≤ b.key := by
  intro l hl
  rw [map_append, mem_append] at hl
  obtain hl | hl := hl
  · exact levelScans_sorted (fun f hf => hint c.level f (hc.sub0 f hf)) hc.sorted0 l hl
  · exact levelScans_sorted (fun f hf => hint (c.level + 1) f (hc.sub1 f hf))
      (fun _ => hc.sorted1) l hl

theorem makeInputIterator_perm :
    (makeInputIterator store faults c).entries.Perm
      ((c.inputs0 ++ c.inputs1).flatMap fun f =>
        ((store f.number).scan (faults f.number)).entries) := by
  have := Merge.mergeAll_perm (inputChildren_sorted hint hc faults)
  rw [map_append, flatten_append, levelScans_flatten, levelScans_flatten,
    flatMap_map, flatMap_map, ← flatMap_append] at this
  unfold makeInputIterator mergingScan
  dsimp only
  rw [map_append]
  exact this

theorem makeInputIterator_sorted :
    (makeInputIterator store faults c).entries.Pairwise fun a b => a.key ≤ b.key :=
  Merge.mergeAll_sorted (inputChildren_sorted hint hc faults)

end

theorem mem_makeInputIterator (hint : v.Intact store) (hc : Closed v c)
    {faults : Nat → TableFault} {e : Entry K V} :
    e ∈ (makeInputIterator store faults c).entries ↔
      ∃ f ∈ c.inputs0 ++ c.inputs1, e ∈ ((store f.number).scan (faults f.number)).entries := by
  rw [(makeInputIterator_perm hint hc faults).mem_iff, mem_flatMap]

theorem makeInputIterator_status_eq_none {faults : Nat → TableFault} :
    (makeInputIterator store faults c).status = none ↔
      ∀ f ∈ c.inputs0 ++ c.inputs1,
        ((store f.number).scan (faults f.number)).status = none := by
  unfold makeInputIterator mergingScan
  dsimp only
  rw [findSome?_append, or_eq_none_iff, levelScans_status, levelScans_status]
  simp only [mem_append, List.mem_map]
  constructor
  · grind
  · simp_all

theorem mem_makeInputIterator_of_status (hint : v.Intact store) (hc : Closed v c)
    {faults : Nat → TableFault} (hstatus : (makeInputIterator store faults c).status = none)
    {e : Entry K V} : e ∈ (makeInputIterator store faults c).entries ↔
      ∃ f ∈ c.inputs0 ++ c.inputs1, e ∈ (store f.number).entries := by
  rw [mem_makeInputIterator hint hc]
  refine exists_congr fun f => and_congr_right fun hf => ?_
  rw [Table.scan_entries_of_status (makeInputIterator_status_eq_none.mp hstatus f hf)]

end Input

end LevelDB
