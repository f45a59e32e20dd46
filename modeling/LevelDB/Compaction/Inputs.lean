/-
  Choosing the input files of a compaction (`db/version_set.cc`): `SetupOtherInputs`,
  `PickCompaction`, `CompactRange`, `IsTrivialMove`.

  What the rest of the development needs of the chosen inputs is `Closed`: no file that is left
  holds older entries of a user key of an input (`up0`, `up1`), and a file left at the output level
  shares no user key with the inputs of the upper level (`overlap`) and lies on one side of all
  inputs (`hull`). `Picked.closed` gives it for every compaction the version set can pick.

  Sizes are natural numbers. The level that `Finalize` scores best, and the file that seek
  statistics select, are parameters (`CompactionReason`).
-/
import Mathlib.Algebra.Ring.Nat
import LevelDB.Compaction.Overlap

namespace LevelDB

open List SortedList

variable {K : Type} [LinearOrder K]

/-! ## Compactions -/

/-- `class Compaction`: the inputs of the two levels, the overlapping files one level
    further, and the compact pointer that `edit_` records. -/
structure Compaction (K : Type) where
  level : Nat
  inputs0 : List (FileMetaData K)
  inputs1 : List (FileMetaData K)
  grandparents : List (FileMetaData K)
  compactPointer : InternalKey K

def totalFileSize (files : List (FileMetaData K)) : Nat :=
  (files.map FileMetaData.fileSize).sum

/-- `MaxGrandParentOverlapBytes`, for `max_file_size`. -/
def maxGrandParentOverlapBytes (maxFileSize : Nat) : Nat := 10 * maxFileSize

def expandedCompactionByteSizeLimit (maxFileSize : Nat) : Nat := 25 * maxFileSize

namespace Version

variable [Inhabited K]

/-- The files of level `level + 1` that `SetupOtherInputs` takes for the files `inputs0`. -/
def otherInputs (v : Version K) (level : Nat) (inputs0 : List (FileMetaData K)) :
    List (FileMetaData K) :=
  let range := getRange inputs0
  addBoundaryInputs (v.files (level + 1))
    (v.getOverlappingInputs (level + 1) (some range.1) (some range.2))

/-- `VersionSet::SetupOtherInputs`, from the files picked at `level`. -/
def setupOtherInputs (v : Version K) (maxFileSize level : Nat) (picked : List (FileMetaData K)) :
    Compaction K :=
  let inputs0 := addBoundaryInputs (v.files level) picked
  let inputs1 := v.otherInputs level inputs0
  let all := getRange2 inputs0 inputs1
  let expanded0 := addBoundaryInputs (v.files level)
    (v.getOverlappingInputs level (some all.1) (some all.2))
  let expanded1 := v.otherInputs level expanded0
  let expand := decide (inputs1 ≠ []) && decide (inputs0.length < expanded0.length) &&
    decide (totalFileSize inputs1 + totalFileSize expanded0 <
      expandedCompactionByteSizeLimit maxFileSize) &&
    decide (expanded1.length = inputs1.length)
  let inputs0' := if expand then expanded0 else inputs0
  let inputs1' := if expand then expanded1 else inputs1
  let all' := getRange2 inputs0' inputs1'
  { level := level
    inputs0 := inputs0'
    inputs1 := inputs1'
    grandparents := if level + 2 < kNumLevels then
      v.getOverlappingInputs (level + 2) (some all'.1) (some all'.2) else []
    compactPointer := (getRange inputs0').2 }

/-- Why `PickCompaction` picks: the level with the best score, or a file with too many
    seeks. -/
inductive CompactionReason (K : Type) where
  | size (level : Nat)
  | seek (level : Nat) (file : FileMetaData K)

def pickFile (v : Version K) (compactPointer : Nat → Option (InternalKey K)) :
    CompactionReason K → Nat × List (FileMetaData K)
  | .size level =>
    let past := (v.files level).find? fun f =>
      (compactPointer level).all fun p => decide (p < f.largest)
    (level, past.toList ++ if past.isNone then (v.files level).head?.toList else [])
  | .seek level file => (level, [file])

def pickCompaction (v : Version K) (maxFileSize : Nat)
    (compactPointer : Nat → Option (InternalKey K)) (reason : CompactionReason K) : Compaction K :=
  let (level, picked) := v.pickFile compactPointer reason
  let range := getRange picked
  let picked := if level = 0 then v.getOverlappingInputs 0 (some range.1) (some range.2) else picked
  v.setupOtherInputs maxFileSize level picked

def truncateInputs (limit : Nat) : Nat → List (FileMetaData K) → List (FileMetaData K)
  | _, [] => []
  | total, f :: rest =>
    if limit ≤ total + f.fileSize then [f] else f :: truncateInputs limit (total + f.fileSize) rest

def compactRange (v : Version K) (maxFileSize level : Nat)
    (rangeBegin rangeEnd : Option (InternalKey K)) : Option (Compaction K) :=
  let inputs := v.getOverlappingInputs level rangeBegin rangeEnd
  if inputs = [] then none
  else
    let inputs := if 0 < level then truncateInputs maxFileSize 0 inputs else inputs
    some (v.setupOtherInputs maxFileSize level inputs)

end Version

def Compaction.isTrivialMove (maxFileSize : Nat) (c : Compaction K) : Bool :=
  c.inputs0.length == 1 && c.inputs1.length == 0 &&
    decide (totalFileSize c.grandparents ≤ maxGrandParentOverlapBytes maxFileSize)

/-! ## The inputs are closed -/

/-- What the inputs of a compaction of `v` guarantee. -/
structure Closed (v : Version K) (c : Compaction K) : Prop where
  sub0 : ∀ f ∈ c.inputs0, f ∈ v.files c.level
  nodup0 : (v.files c.level).Nodup → c.inputs0.Nodup
  sorted0 : 0 < c.level → SortedDisjoint c.inputs0
  sorted1 : SortedDisjoint c.inputs1
  sub1 : ∀ f ∈ c.inputs1, f ∈ v.files (c.level + 1)
  up0 : UpClosed (v.files c.level) c.inputs0
  up1 : UpClosed (v.files (c.level + 1)) c.inputs1
  overlap : ∀ f ∈ c.inputs0, ∀ g ∈ v.files (c.level + 1), g ∉ c.inputs1 →
    g.largest.userKey < f.smallest.userKey ∨ f.largest.userKey < g.smallest.userKey
  hull : ∀ g ∈ v.files (c.level + 1), g ∉ c.inputs1 →
    (∀ f ∈ c.inputs0 ++ c.inputs1, g.largest < f.smallest) ∨
    (∀ f ∈ c.inputs0 ++ c.inputs1, f.largest < g.smallest)

/-- Files from which `SetupOtherInputs` may start at `level`. -/
structure Start (v : Version K) (level : Nat) (picked : List (FileMetaData K)) : Prop where
  sub : ∀ f ∈ picked, f ∈ v.files level
  nodup : (v.files level).Nodup → picked.Nodup
  sorted : 0 < level → SortedDisjoint picked
  isolated : level = 0 → Isolated (v.files 0) picked
  convex : 0 < level → Convex (v.files level) picked

section Closure

variable [Inhabited K] {v : Version K}

def Version.Ranged (v : Version K) : Prop := ∀ level, ∀ f ∈ v.files level, f.smallest ≤ f.largest

omit [Inhabited K] in
theorem start_getOverlappingInputs (hsort : v.LevelsSorted) (hr : v.Ranged) (level : Nat)
    (b e : Option (InternalKey K)) : Start v level (v.getOverlappingInputs level b e) := by
  unfold Version.getOverlappingInputs
  obtain rfl | hpos := Nat.eq_zero_or_pos level
  · rw [if_pos rfl]
    have hisolated := isolated_overlapLoop (v.files 0) (b.map InternalKey.userKey)
      (e.map InternalKey.userKey)
    obtain ⟨b', e', hl, -, -⟩ := overlapLoop_spec (Nat.lt_succ_of_le
      (overlapMeasure_le (v.files 0) (b.map InternalKey.userKey) (e.map InternalKey.userKey)))
    rw [hl] at hisolated ⊢
    exact ⟨fun f hf => (mem_filter.mp hf).1, fun h => h.filter _,
      fun h => absurd h (lt_irrefl 0), fun _ => hisolated, fun h => absurd h (lt_irrefl 0)⟩
  · rw [if_neg hpos.ne']
    exact ⟨fun f hf => (mem_filter.mp hf).1, fun h => h.filter _,
      fun _ => List.Pairwise.filter _ (hsort level hpos), fun h => absurd h hpos.ne',
      fun _ => convex_filter_meets (hsort level hpos) (hr level) _ _⟩

omit [Inhabited K] in
theorem Start.upClosed {level : Nat} {picked : List (FileMetaData K)} (h : Start v level picked)
    (hsort : v.LevelsSorted) (hr : v.Ranged) :
    (∀ f ∈ addBoundaryInputs (v.files level) picked, f ∈ v.files level) ∧
    UpClosed (v.files level) (addBoundaryInputs (v.files level) picked) ∧
    (0 < level → SortedDisjoint (addBoundaryInputs (v.files level) picked)) ∧
    ((v.files level).Nodup → (addBoundaryInputs (v.files level) picked).Nodup) := by
  obtain ⟨-, hin, htop, hsorted, hconv⟩ := addBoundaryInputs_spec (hr level) h.sub
  obtain rfl | hpos := Nat.eq_zero_or_pos level
  · rw [(h.isolated rfl).addBoundaryInputs_eq (hr 0) h.sub]
    exact ⟨h.sub, (h.isolated rfl).upClosed, fun h => absurd h (lt_irrefl 0), h.nodup⟩
  · have hsd := hsorted (h.sorted hpos)
    refine ⟨hin, UpClosed.of_convex (hconv (hsort level hpos) (h.convex hpos)) htop,
      fun _ => hsd, fun _ => ?_⟩
    refine List.Pairwise.imp_of_mem ?_ hsd
    intro f g hf hg hfg heq
    subst heq
    exact absurd (hr level f (hin f hf)) (not_le.mpr hfg)

variable {f g : FileMetaData K} {c : Compaction K} {files : List (FileMetaData K)}

theorem exists_meets_of_mem_otherInputs (hsort : v.LevelsSorted) (hr : v.Ranged) {level : Nat}
    {inputs0 : List (FileMetaData K)} (hf : f ∈ v.otherInputs level inputs0) :
    ∃ x ∈ v.otherInputs level inputs0,
      x.meets (some (getRange inputs0).1.userKey) (some (getRange inputs0).2.userKey) := by
  have hstart := start_getOverlappingInputs hsort hr (level + 1)
    (some (getRange inputs0).1) (some (getRange inputs0).2)
  obtain ⟨hkeep, -⟩ := addBoundaryInputs_spec (hr (level + 1)) hstart.sub
  cases hl : v.getOverlappingInputs (level + 1) (some (getRange inputs0).1)
      (some (getRange inputs0).2) with
  | nil =>
    unfold Version.otherInputs at hf
    dsimp only at hf
    rw [hl] at hf
    cases hf
  | cons x rest =>
    have hx := hl ▸ mem_cons_self (a := x) (l := rest)
    exact ⟨x, hkeep x hx, (mem_filter.mp hx).2⟩

theorem otherInputs_left_out (hsort : v.LevelsSorted) (hr : v.Ranged) (level : Nat)
    (inputs0 : List (FileMetaData K)) (hg : g ∈ v.files (level + 1))
    (hgn : g ∉ v.otherInputs level inputs0) :
    (g.largest.userKey < (getRange inputs0).1.userKey ∧
      ∀ f ∈ v.otherInputs level inputs0, g.largest < f.smallest) ∨
    ((getRange inputs0).2.userKey < g.smallest.userKey ∧
      ∀ f ∈ v.otherInputs level inputs0, f.largest < g.smallest) := by
  have hpos : 0 < level + 1 := Nat.succ_pos level
  have hstart := start_getOverlappingInputs hsort hr (level + 1)
    (some (getRange inputs0).1) (some (getRange inputs0).2)
  obtain ⟨hkeep, -, -, -, hconv⟩ := addBoundaryInputs_spec (hr (level + 1)) hstart.sub
  have hgm : ¬ g.meets (some (getRange inputs0).1.userKey)
      (some (getRange inputs0).2.userKey) = true :=
    fun hm => hgn (hkeep g (mem_filter.mpr ⟨hg, hm⟩))
  have hgr := InternalKey.userKey_mono (hr (level + 1) g hg)
  have hside := hconv (hsort (level + 1) hpos) (hstart.convex hpos) g hg hgn
  rw [FileMetaData.meets_iff, not_and_or] at hgm
  -- a file that meets the range tells on which side `g` is
  obtain hgm | hgm := hgm
  · have hlt : g.largest.userKey < (getRange inputs0).1.userKey := by simpa using hgm
    refine .inl ⟨hlt, hside.elim id fun h f hf => ?_⟩
    obtain ⟨x, hx, hm⟩ := exists_meets_of_mem_otherInputs hsort hr hf
    have hxm := (FileMetaData.meets_iff.mp hm).1 _ rfl
    have hxg := InternalKey.userKey_mono (h x hx).le
    exact absurd (hlt.trans_le (hxm.trans hxg)) (not_lt.mpr hgr)
  · have hlt : (getRange inputs0).2.userKey < g.smallest.userKey := by simpa using hgm
    refine .inr ⟨hlt, hside.elim (fun h f hf => ?_) id⟩
    obtain ⟨x, hx, hm⟩ := exists_meets_of_mem_otherInputs hsort hr hf
    have hxm := (FileMetaData.meets_iff.mp hm).2 _ rfl
    have hxg := InternalKey.userKey_mono (h x hx).le
    exact absurd (hgr.trans (hxg.trans hxm)) (not_le.mpr hlt)

theorem closed_of_start (hsort : v.LevelsSorted) (hr : v.Ranged) {level : Nat}
    {picked : List (FileMetaData K)} (h : Start v level picked) (hl : c.level = level)
    (h0 : c.inputs0 = addBoundaryInputs (v.files level) picked)
    (h1 : c.inputs1 = v.otherInputs level c.inputs0) : Closed v c := by
  subst hl
  obtain ⟨hsub0, hup0, hsorted0, hnodup0⟩ := h.upClosed hsort hr
  rw [← h0] at hsub0 hup0 hsorted0 hnodup0
  have hstart1 := start_getOverlappingInputs hsort hr (c.level + 1)
    (some (getRange c.inputs0).1) (some (getRange c.inputs0).2)
  obtain ⟨hsub1, hup1, hsorted1, -⟩ := hstart1.upClosed hsort hr
  have h1' : addBoundaryInputs (v.files (c.level + 1)) (v.getOverlappingInputs (c.level + 1)
      (some (getRange c.inputs0).1) (some (getRange c.inputs0).2)) = c.inputs1 := h1.symm
  rw [h1'] at hsub1 hup1 hsorted1
  refine ⟨hsub0, hnodup0, hsorted0, hsorted1 (Nat.succ_pos _), hsub1, hup0, hup1, ?_, ?_⟩
  · intro f hf g hg hgn
    rw [h1] at hgn
    obtain ⟨hlo, hhi⟩ := getRange_covers hf
    obtain ⟨h, -⟩ | ⟨h, -⟩ := otherInputs_left_out hsort hr c.level c.inputs0 hg hgn
    · exact Or.inl (h.trans_le (InternalKey.userKey_mono hlo))
    · exact Or.inr ((InternalKey.userKey_mono hhi).trans_lt h)
  · intro g hg hgn
    rw [h1] at hgn
    obtain ⟨hu, hall⟩ | ⟨hu, hall⟩ := otherInputs_left_out hsort hr c.level c.inputs0 hg hgn
    · left
      intro f hf
      obtain hf | hf := mem_append.mp hf
      · exact InternalKey.lt_of_userKey_lt
          (hu.trans_le (InternalKey.userKey_mono (getRange_covers hf).1))
      · rw [h1] at hf; exact hall f hf
    · right
      intro f hf
      obtain hf | hf := mem_append.mp hf
      · exact InternalKey.lt_of_userKey_lt
          ((InternalKey.userKey_mono (getRange_covers hf).2).trans_lt hu)
      · rw [h1] at hf; exact hall f hf

theorem setupOtherInputs_closed (hsort : v.LevelsSorted) (hr : v.Ranged) {level : Nat}
    {picked : List (FileMetaData K)} (h : Start v level picked) (maxFileSize : Nat) :
    Closed v (v.setupOtherInputs maxFileSize level picked) := by
  grind [Version.setupOtherInputs, closed_of_start, start_getOverlappingInputs]

/-- The compactions the version set picks at a level that has a next one: for the level with
    the best score, which has files if the score is at least 1, for a file with too many
    seeks, or by hand. -/
inductive Picked (v : Version K) : Compaction K → Prop where
  | size {level : Nat} (maxFileSize : Nat) (compactPointer : Nat → Option (InternalKey K))
      (hlevel : level + 1 < kNumLevels) (hfiles : v.files level ≠ []) :
      Picked v (v.pickCompaction maxFileSize compactPointer (.size level))
  | seek {level : Nat} {f : FileMetaData K} (maxFileSize : Nat)
      (compactPointer : Nat → Option (InternalKey K)) (hlevel : level + 1 < kNumLevels)
      (hf : f ∈ v.files level) :
      Picked v (v.pickCompaction maxFileSize compactPointer (.seek level f))
  | manual {level : Nat} {c : Compaction K} (maxFileSize : Nat)
      (rangeBegin rangeEnd : Option (InternalKey K)) (hlevel : level + 1 < kNumLevels)
      (hc : v.compactRange maxFileSize level rangeBegin rangeEnd = some c) : Picked v c

omit [Inhabited K] in
theorem start_singleton (hsort : v.LevelsSorted) {level : Nat} (hpos : 0 < level)
    (hf : f ∈ v.files level) : Start v level [f] := by
  refine ⟨by simpa using hf, fun _ => nodup_singleton f,
    fun _ => pairwise_singleton _ _, fun h => absurd h hpos.ne', fun _ => ?_⟩
  intro g hg hgn
  have hne : g ≠ f := by simpa using hgn
  obtain h | h := pairwise_either (hsort level hpos) hg hf hne
  · exact Or.inl (by simpa using h)
  · exact Or.inr (by simpa using h)

omit [LinearOrder K] [Inhabited K] in
theorem truncateInputs_append (limit : Nat) (files : List (FileMetaData K)) :
    ∀ total, ∃ rest, files = Version.truncateInputs limit total files ++ rest := by
  induction files with
  | nil => intro _; exact ⟨[], rfl⟩
  | cons f files ih =>
    intro total
    unfold Version.truncateInputs
    split_ifs
    · exact ⟨files, rfl⟩
    · simp_all

omit [Inhabited K] in
theorem Convex.of_append {files pre post : List (FileMetaData K)}
    (hsorted : SortedDisjoint (pre ++ post)) (h : Convex files (pre ++ post)) :
    Convex files pre := by
  intro g hg hgn
  by_cases hgp : g ∈ post
  · exact Or.inr fun f hf => (pairwise_append.mp hsorted).2.2 f hf g hgp
  · have hgn' : g ∉ pre ++ post := fun h => (mem_append.mp h).elim hgn hgp
    obtain h | h := h g hg hgn'
    · exact Or.inl fun f hf => h f (mem_append_left _ hf)
    · exact Or.inr fun f hf => h f (mem_append_left _ hf)

omit [Inhabited K] in
theorem Start.of_append {level : Nat} (hpos : 0 < level)
    {pre post : List (FileMetaData K)} (h : Start v level (pre ++ post)) : Start v level pre := by
  refine ⟨fun f hf => h.sub f (mem_append_left _ hf),
    fun hn => (h.nodup hn).sublist (sublist_append_left _ _),
    fun _ => (pairwise_append.mp (h.sorted hpos)).1, fun h0 => absurd h0 hpos.ne',
    fun _ => Convex.of_append (h.sorted hpos) (h.convex hpos)⟩

omit [Inhabited K] in
theorem pickFile_size_eq_singleton {compactPointer : Nat → Option (InternalKey K)} {level : Nat}
    (h : v.files level ≠ []) :
    ∃ f ∈ v.files level, (v.pickFile compactPointer (.size level)).2 = [f] := by
  unfold Version.pickFile
  dsimp only
  cases hp : (v.files level).find? fun f =>
      (compactPointer level).all fun p => decide (p < f.largest) with
  | none =>
    refine ⟨(v.files level).head h, head_mem h, ?_⟩
    rw [head?_eq_some_head h]
    rfl
  | some f => exact ⟨f, mem_of_find?_eq_some hp, rfl⟩

theorem pickCompaction_eq {compactPointer : Nat → Option (InternalKey K)}
    {reason : Version.CompactionReason K} (hp : (v.pickFile compactPointer reason).2 = [f])
    (maxFileSize : Nat) :
    v.pickCompaction maxFileSize compactPointer reason =
      v.setupOtherInputs maxFileSize (v.pickFile compactPointer reason).1
        (if (v.pickFile compactPointer reason).1 = 0 then
          v.getOverlappingInputs 0 (some f.smallest) (some f.largest) else [f]) := by
  unfold Version.pickCompaction
  dsimp only
  rw [hp]
  rfl

omit [LinearOrder K] [Inhabited K] in
theorem truncateInputs_ne_nil {limit : Nat} (h : files ≠ []) :
    Version.truncateInputs limit 0 files ≠ [] := by
  cases files with
  | nil => exact absurd rfl h
  | cons f rest =>
    unfold Version.truncateInputs
    split_ifs <;> exact cons_ne_nil _ _

/-- What `SetupOtherInputs` starts from: a file, at level 0 all files that overlap it, or the
    first files of a range, at level 0 all of them. -/
def Version.Origin (v : Version K) (level : Nat) (picked : List (FileMetaData K)) : Prop :=
  (∃ f ∈ v.files level, picked = if level = 0 then
    v.getOverlappingInputs 0 (some f.smallest) (some f.largest) else [f]) ∨
  ∃ b e rest, v.getOverlappingInputs level b e = picked ++ rest ∧ picked ≠ [] ∧
    (level = 0 → rest = [])

theorem Picked.exists_origin (h : Picked v c) :
    ∃ maxFileSize level picked, level + 1 < kNumLevels ∧
      c = v.setupOtherInputs maxFileSize level picked ∧ v.Origin level picked := by
  cases h with
  | @size level maxFileSize compactPointer hlevel hfiles =>
    obtain ⟨f, hf, hp⟩ := pickFile_size_eq_singleton hfiles
    exact ⟨_, level, _, hlevel, pickCompaction_eq hp maxFileSize, Or.inl ⟨f, hf, rfl⟩⟩
  | @seek level f maxFileSize compactPointer hlevel hf =>
    exact ⟨_, level, _, hlevel, pickCompaction_eq rfl maxFileSize, Or.inl ⟨f, hf, rfl⟩⟩
  | @manual level c maxFileSize b e hlevel hc =>
    unfold Version.compactRange at hc
    dsimp only at hc
    by_cases hnil : v.getOverlappingInputs level b e = []
    · rw [if_pos hnil] at hc
      cases hc
    · rw [if_neg hnil] at hc
      refine ⟨_, level, _, hlevel, (Option.some.inj hc).symm, Or.inr ⟨b, e, ?_⟩⟩
      by_cases hpos : 0 < level
      · simp_all [truncateInputs_append, truncateInputs_ne_nil, hpos.ne']
      · rw [if_neg hpos]
        exact ⟨[], (append_nil _).symm, hnil, fun _ => rfl⟩

theorem Picked.level_lt (h : Picked v c) : c.level + 1 < kNumLevels := by
  obtain ⟨_, level, _, hlevel, rfl, -⟩ := h.exists_origin
  exact hlevel

section Origin

variable {level : Nat} {picked : List (FileMetaData K)} (h : v.Origin level picked)

include h

omit [Inhabited K] in
theorem Version.Origin.start (hsort : v.LevelsSorted) (hr : v.Ranged) : Start v level picked := by
  obtain ⟨f, hf, rfl⟩ | ⟨b, e, rest, hinputs, -, hrest⟩ := h
  · grind [start_getOverlappingInputs, start_singleton, Nat.pos_of_ne_zero]
  · have hstart := start_getOverlappingInputs hsort hr level b e
    rw [hinputs] at hstart
    obtain h0 | hpos := Nat.eq_zero_or_pos level
    · rw [hrest h0, append_nil] at hstart
      exact hstart
    · exact hstart.of_append hpos

omit [Inhabited K] in
theorem Version.Origin.level_zero (h0 : level = 0) :
    ∃ b e, picked = v.getOverlappingInputs 0 b e := by
  subst h0
  obtain ⟨f, hf, rfl⟩ | ⟨b, e, rest, hinputs, -, hrest⟩ := h
  · exact ⟨_, _, if_pos rfl⟩
  · rw [hrest rfl, append_nil] at hinputs
    exact ⟨b, e, hinputs.symm⟩

end Origin

/-- **Compaction inputs are closed.** -/
theorem Picked.closed (hsort : v.LevelsSorted) (hr : v.Ranged) (h : Picked v c) : Closed v c := by
  obtain ⟨maxFileSize, level, picked, -, rfl, horigin⟩ := h.exists_origin
  exact setupOtherInputs_closed hsort hr (horigin.start hsort hr) maxFileSize

/-! ## The inputs are files of the version -/

omit [Inhabited K] in
theorem mem_of_getOverlappingInputs {level : Nat} {b e : Option (InternalKey K)}
    (h : f ∈ v.getOverlappingInputs level b e) : f ∈ v.files level := by
  unfold Version.getOverlappingInputs at h
  dsimp only at h
  split_ifs at h with hlevel
  · obtain ⟨b', e', heq, -⟩ := overlapLoop_spec (Nat.lt_succ_of_le
      (overlapMeasure_le (v.files 0) (b.map InternalKey.userKey) (e.map InternalKey.userKey)))
    rw [heq] at h
    rw [hlevel]
    exact mem_of_mem_filter h
  · exact mem_of_mem_filter h

omit [Inhabited K] in
theorem mem_of_boundaryLoop {fuel : Nat} {key : InternalKey K}
    (h : f ∈ boundaryLoop files fuel key) :
    f ∈ files := by
  induction fuel generalizing key with
  | zero => cases h
  | succ fuel ih =>
    grind [findSmallestBoundaryFile_spec, boundaryLoop, findSmallestBoundaryFile]

omit [Inhabited K] in
theorem mem_of_addBoundaryInputs {files inputs : List (FileMetaData K)}
    (hsub : ∀ g ∈ inputs, g ∈ files) (h : f ∈ addBoundaryInputs files inputs) : f ∈ files := by
  grind [addBoundaryInputs, mem_of_boundaryLoop]

theorem mem_of_setupOtherInputs {maxFileSize level : Nat} {picked : List (FileMetaData K)}
    (hsub : ∀ g ∈ picked, g ∈ v.files level)
    (h : f ∈ (v.setupOtherInputs maxFileSize level picked).inputs0) : f ∈ v.files level := by
  grind [Version.setupOtherInputs, mem_of_addBoundaryInputs, mem_of_getOverlappingInputs]

omit [Inhabited K] in
theorem Version.Origin.mem {level : Nat} {picked : List (FileMetaData K)}
    (h : v.Origin level picked) (hf : f ∈ picked) : f ∈ v.files level := by
  obtain ⟨g, hg, rfl⟩ | ⟨b, e, rest, hinputs, -⟩ := h
  · grind [mem_of_getOverlappingInputs, mem_singleton]
  · refine mem_of_getOverlappingInputs (b := b) (e := e) ?_
    rw [hinputs]
    exact mem_append_left _ hf

theorem Picked.exists_mem (h : Picked v c) (hf : f ∈ c.inputs0) : ∃ level, f ∈ v.files level := by
  obtain ⟨maxFileSize, level, picked, -, rfl, horigin⟩ := h.exists_origin
  exact ⟨level, mem_of_setupOtherInputs (fun g hg => horigin.mem hg) hf⟩

/-! ## The inputs are not empty -/

omit [Inhabited K] in
theorem addBoundaryInputs_ne_nil {levelFiles inputs : List (FileMetaData K)} (h : inputs ≠ []) :
    addBoundaryInputs levelFiles inputs ≠ [] := by
  unfold addBoundaryInputs
  split
  · exact h
  · exact append_ne_nil_of_left_ne_nil h _

theorem setupOtherInputs_ne_nil {picked : List (FileMetaData K)} (h : picked ≠ [])
    (maxFileSize level : Nat) : (v.setupOtherInputs maxFileSize level picked).inputs0 ≠ [] := by
  unfold Version.setupOtherInputs
  dsimp only
  split_ifs with hexpand
  · grind
  · exact addBoundaryInputs_ne_nil h

omit [Inhabited K] in
theorem mem_getOverlappingInputs_of_meets {level : Nat} (hf : f ∈ v.files level)
    {b e : Option (InternalKey K)}
    (hmeets : f.meets (b.map InternalKey.userKey) (e.map InternalKey.userKey) = true) :
    f ∈ v.getOverlappingInputs level b e := by
  unfold Version.getOverlappingInputs
  dsimp only
  split_ifs with hlevel
  · subst hlevel
    obtain ⟨b', e', hloop, hwide, -⟩ := overlapLoop_spec (Nat.lt_succ_of_le
      (overlapMeasure_le (v.files 0) (b.map InternalKey.userKey) (e.map InternalKey.userKey)))
    rw [hloop]
    exact mem_filter.mpr ⟨hf, hwide f hf hmeets⟩
  · exact mem_filter.mpr ⟨hf, hmeets⟩

omit [Inhabited K] in
theorem FileMetaData.meets_of_covered (hr : f.smallest ≤ f.largest) {b e : InternalKey K}
    (hlo : b ≤ f.smallest) (hhi : f.largest ≤ e) :
    f.meets (some b.userKey) (some e.userKey) = true := by
  grind [FileMetaData.meets_iff, Option.some.inj, InternalKey.userKey_mono]

omit [Inhabited K] in
theorem Version.Origin.ne_nil {level : Nat} {picked : List (FileMetaData K)} (hr : v.Ranged)
    (h : v.Origin level picked) : picked ≠ [] := by
  obtain ⟨f, hf, rfl⟩ | ⟨b, e, rest, -, hne, -⟩ := h
  · split_ifs with h0
    · rw [h0] at hf
      exact ne_nil_of_mem (mem_getOverlappingInputs_of_meets hf
        (FileMetaData.meets_of_covered (hr 0 f hf) le_rfl le_rfl))
    · exact cons_ne_nil _ _
  · exact hne

theorem Picked.inputs0_ne_nil (hr : v.Ranged) (h : Picked v c) :
    c.inputs0 ≠ [] := by
  obtain ⟨maxFileSize, level, picked, -, rfl, horigin⟩ := h.exists_origin
  exact setupOtherInputs_ne_nil (horigin.ne_nil hr) maxFileSize level

theorem Picked.compactPointer_mem (hr : v.Ranged) (h : Picked v c) :
    ∃ f ∈ c.inputs0, c.compactPointer = f.largest := by
  have hne := h.inputs0_ne_nil hr
  obtain ⟨maxFileSize, level, picked, -, rfl, -⟩ := h.exists_origin
  exact getRange_largest_mem hne

/-! ## No file is left between the inputs -/

theorem setupOtherInputs_level_zero (hsort : v.LevelsSorted) (hr : v.Ranged) (maxFileSize : Nat)
    {picked : List (FileMetaData K)} (h : ∃ b e, picked = v.getOverlappingInputs 0 b e) :
    ∃ b e, (v.setupOtherInputs maxFileSize 0 picked).inputs0 = v.getOverlappingInputs 0 b e := by
  have hboundary : ∀ b e, addBoundaryInputs (v.files 0) (v.getOverlappingInputs 0 b e) =
      v.getOverlappingInputs 0 b e := by
    intro b e
    have hstart := start_getOverlappingInputs hsort hr 0 b e
    exact (hstart.isolated rfl).addBoundaryInputs_eq (hr 0) hstart.sub
  obtain ⟨b, e, rfl⟩ := h
  unfold Version.setupOtherInputs
  dsimp only
  split_ifs
  · exact ⟨_, _, hboundary _ _⟩
  · exact ⟨_, _, hboundary _ _⟩

theorem Picked.mem_inputs0_of_meetsHull (hsort : v.LevelsSorted) (hr : v.Ranged) (h : Picked v c)
    (h0 : c.level = 0) (hg : g ∈ v.files 0) (hmeets : g.MeetsHull c.inputs0) : g ∈ c.inputs0 := by
  obtain ⟨maxFileSize, level, picked, -, rfl, horigin⟩ := h.exists_origin
  obtain rfl : level = 0 := h0
  obtain ⟨b, e, heq⟩ := setupOtherInputs_level_zero hsort hr maxFileSize (horigin.level_zero rfl)
  rw [heq] at hmeets ⊢
  exact mem_overlapLoop_of_meetsHull hg hmeets

omit [Inhabited K] in
theorem Closed.mem_inputs1_of_meetsHull (hr : v.Ranged) (h : Closed v c)
    (hg : g ∈ v.files (c.level + 1)) (hmeets : g.MeetsHull c.inputs0) :
    g ∈ c.inputs1 := by
  by_contra hgn
  have hgr := InternalKey.userKey_mono (hr (c.level + 1) g hg)
  obtain ⟨⟨f, hf, hlo⟩, f', hf', hhi⟩ := hmeets
  have hfr := InternalKey.userKey_mono (hr c.level f (h.sub0 f hf))
  have hfr' := InternalKey.userKey_mono (hr c.level f' (h.sub0 f' hf'))
  obtain hbefore | hafter := h.hull g hg hgn
  · have hle := InternalKey.userKey_mono (hbefore f (mem_append_left _ hf)).le
    obtain hlt | hlt := h.overlap f hf g hg hgn
    · exact absurd hlo (not_le.mpr hlt)
    · exact absurd (hlt.trans_le (hgr.trans hle)) (not_lt.mpr hfr)
  · have hle := InternalKey.userKey_mono (hafter f' (mem_append_left _ hf')).le
    obtain hlt | hlt := h.overlap f' hf' g hg hgn
    · exact absurd (hlt.trans_le (hfr'.trans hle)) (not_lt.mpr hgr)
    · exact absurd hhi (not_le.mpr hlt)

omit [Inhabited K] in
theorem UpClosed.not_after {files inputs : List (FileMetaData K)} (h : UpClosed files inputs)
    (hr : ∀ f ∈ inputs, f.smallest ≤ f.largest) {top : InternalKey K} (htop : IsTop top inputs)
    (hg : g ∈ files) (hgn : g ∉ inputs) {x : InternalKey K} (hlo : g.smallest ≤ x)
    (hhi : x ≤ g.largest) (hx : x.userKey = top.userKey) : x < top := by
  obtain ⟨-, f, hf, rfl⟩ := htop
  obtain hbefore | hafter := h f hf g hg hgn
  · exact (hhi.trans_lt hbefore).trans_le (hr f hf)
  · exact absurd hx (hafter.trans_le (InternalKey.userKey_mono hlo)).ne'

omit [Inhabited K] in
theorem SortedDisjoint.nodup (h : SortedDisjoint files) (hr : ∀ f ∈ files, f.smallest ≤ f.largest) :
    files.Nodup := by
  refine List.Pairwise.imp_of_mem ?_ h
  intro f g hf _ hfg heq
  subst heq
  exact absurd (hr f hf) (not_le.mpr hfg)

/-- The inputs of every compaction that is picked: files of the two levels, each once; at level
    0 and at the next level all files that meet the range of the inputs of the upper level; and
    no file left out goes on with the last user key of the inputs of its level. -/
theorem picked_inputs_closed (hsort : v.LevelsSorted) (hr : v.Ranged)
    (hnodup : (v.files 0).Nodup) {c : Compaction K} (h : Picked v c) :
    ((∀ f ∈ c.inputs0, f ∈ v.files c.level) ∧ c.inputs0.Nodup ∧ c.inputs0 ≠ [] ∧
      (∀ f ∈ c.inputs1, f ∈ v.files (c.level + 1)) ∧ c.inputs1.Nodup) ∧
    (c.level = 0 → ∀ g ∈ v.files 0, g.MeetsHull c.inputs0 → g ∈ c.inputs0) ∧
    (∀ g ∈ v.files (c.level + 1), g.MeetsHull c.inputs0 → g ∈ c.inputs1) ∧
    (1 ≤ c.level → ∀ top, IsTop top c.inputs0 → ∀ g ∈ v.files c.level, g ∉ c.inputs0 →
      ∀ x, g.smallest ≤ x → x ≤ g.largest → x.userKey = top.userKey → ¬ top < x) ∧
    (∀ top, IsTop top c.inputs1 → ∀ g ∈ v.files (c.level + 1), g ∉ c.inputs1 →
      ∀ x, g.smallest ≤ x → x ≤ g.largest → x.userKey = top.userKey → ¬ top < x) := by
  have hclosed := h.closed hsort hr
  have hr0 : ∀ f ∈ c.inputs0, f.smallest ≤ f.largest := fun f hf => hr _ f (hclosed.sub0 f hf)
  have hr1 : ∀ f ∈ c.inputs1, f.smallest ≤ f.largest := fun f hf => hr _ f (hclosed.sub1 f hf)
  refine ⟨⟨hclosed.sub0, hclosed.nodup0 ?_, h.inputs0_ne_nil hr, hclosed.sub1,
    hclosed.sorted1.nodup hr1⟩, ?_, ?_, ?_, ?_⟩
  · obtain h0 | hpos := Nat.eq_zero_or_pos c.level
    · rw [h0]
      exact hnodup
    · exact (hsort c.level hpos).nodup (hr c.level)
  · exact fun h0 g hg => h.mem_inputs0_of_meetsHull hsort hr h0 hg
  · exact fun g hg => hclosed.mem_inputs1_of_meetsHull hr hg
  · intro _ top htop g hg hgn x hlo hhi hx
    exact lt_asymm (hclosed.up0.not_after hr0 htop hg hgn hlo hhi hx)
  · intro top htop g hg hgn x hlo hhi hx
    exact lt_asymm (hclosed.up1.not_after hr1 htop hg hgn hlo hhi hx)

end Closure

def stacked : Version Nat where
  files
    | 0 => [⟨5, 10, ⟨1, 9⟩, ⟨4, 9⟩⟩, ⟨6, 10, ⟨3, 17⟩, ⟨6, 17⟩⟩]
    | 1 => [⟨2, 10, ⟨5, 5⟩, ⟨9, 5⟩⟩, ⟨3, 10, ⟨12, 1⟩, ⟨15, 1⟩⟩]
    | _ => []
  files_eq_nil
    | 0, h | 1, h => absurd h (by decide)
    | _ + 2, _ => rfl

theorem picked_inputs_closed_stacked :
    let c := stacked.pickCompaction 2097152 (fun _ => none)
      (.seek 0 ⟨5, 10, ⟨1, 9⟩, ⟨4, 9⟩⟩)
    c.inputs0.Nodup ∧ (∀ g ∈ stacked.files 0, g.MeetsHull c.inputs0 → g ∈ c.inputs0) ∧
      ∀ g ∈ stacked.files 1, g.MeetsHull c.inputs0 → g ∈ c.inputs1 := by
  have hsort : stacked.LevelsSorted
    | 0, h => absurd h (by decide)
    | 1, _ => by unfold SortedDisjoint; decide
    | _ + 2, _ => List.Pairwise.nil
  have hr : stacked.Ranged
    | 0 => by decide
    | 1 => by decide
    | _ + 2 => fun _ hf => absurd hf not_mem_nil
  have hpicked : Picked stacked (stacked.pickCompaction 2097152 (fun _ => none)
      (.seek 0 ⟨5, 10, ⟨1, 9⟩, ⟨4, 9⟩⟩)) :=
    .seek 2097152 (fun _ => none) (by decide) (by decide)
  obtain ⟨⟨-, hnodup, -⟩, hzero, hnext, -⟩ := picked_inputs_closed hsort hr (by decide) hpicked
  exact ⟨hnodup, hzero rfl, hnext⟩

end LevelDB
