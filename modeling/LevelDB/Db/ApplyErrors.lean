/-
  `LogAndApply` when file operations fail (`db/version_set.cc`).

  `Builder::Apply` writes the compact pointers of the edit into the version set before the first
  file operation; everything else is set only when all of them have succeeded.
-/
import LevelDB.Db.Manifest
import LevelDB.Compaction.Install

namespace LevelDB

open List

variable {K V : Type} [LinearOrder K]

/-- The errors of the file operations of one `LogAndApply`, in the order of the calls; `none` is
    success. -/
structure ApplyEnv where
  newWritableFile : Option Status := none
  writeSnapshot : Option Status := none
  addRecord : Option Status := none
  sync : Option Status := none
  setCurrentFile : Option Status := none

/-- The status `s` at the end of `LogAndApply`: the first error, and `none` if there is none.
    A manifest that is open is not created, and CURRENT names it already. -/
def ApplyEnv.status (env : ApplyEnv) (newManifest : Bool) : Option Status :=
  let s := if newManifest then env.newWritableFile.or env.writeSnapshot else none
  let s := s.or (env.addRecord.or env.sync)
  if newManifest then s.or env.setCurrentFile else s

def VersionEdit.lastPointer (edit : VersionEdit K) (level : Nat) : Option (InternalKey K) :=
  (edit.compactPointers.filter fun p => p.1 = level).getLast?.map Prod.snd

variable [Inhabited K]

/-- An entry of `compact_pointer_`. An empty string is no pointer. -/
def pointerOf (k : InternalKey K) : Option (InternalKey K) := if k = .cleared then none else some k

/-- `VersionSet::LogAndApply`, as far as the version set goes. -/
def VersionSet.applyOn (env : ApplyEnv) (vs : VersionSet K) (edit : VersionEdit K) :
    VersionSet K × Except Status Unit :=
  let edit := vs.completeEdit edit
  let v := vs.current.applyEdit edit
  -- `Builder::Apply`
  let vs₁ := { vs with compactPointer := applyCompactPointers vs.compactPointer edit }
  let newManifest := vs.descriptorLog.isNone
  let vs₂ :=
    if newManifest && env.newWritableFile.isNone then
      { vs₁ with descriptorLog := some vs.manifestFileNumber }
    else vs₁
  match env.status newManifest with
  | none =>
    ({ vs₂ with
      current := v
      logNumber := edit.logNumber.getD vs.logNumber
      prevLogNumber := edit.prevLogNumber.getD vs.prevLogNumber }, .ok ())
  | some s => (if newManifest then { vs₂ with descriptorLog := none } else vs₂, .error s)

theorem applyCompactPointers_eq (pointers : Nat → Option (InternalKey K)) (edit : VersionEdit K)
    (level : Nat) :
    applyCompactPointers pointers edit level =
      (edit.lastPointer level).elim (pointers level) pointerOf := by
  unfold applyCompactPointers VersionEdit.lastPointer
  induction edit.compactPointers using List.reverseRecOn with
  | nil => rfl
  | append_singleton l p ih =>
    rw [foldl_append, foldl_cons, foldl_nil, filter_append]
    by_cases hlevel : p.1 = level
    · rw [filter_singleton, decide_eq_true hlevel, cond_true, getLast?_concat,
        ← hlevel, Function.update_self]
      rfl
    · rw [filter_singleton, decide_eq_false hlevel, cond_false, append_nil,
        Function.update_of_ne (Ne.symm hlevel), ih]

namespace VersionSet

variable {env : ApplyEnv} {vs : VersionSet K} {edit : VersionEdit K}

theorem applyOn_error {s : Status} (h : (vs.applyOn env edit).2 = .error s) :
    (vs.applyOn env edit).1 =
      { vs with compactPointer := applyCompactPointers vs.compactPointer edit } := by
  unfold applyOn at h ⊢
  dsimp only at h ⊢
  cases hs : env.status vs.descriptorLog.isNone with
  | none =>
    rw [hs] at h
    cases h
  | some s' =>
    dsimp only
    cases hdesc : vs.descriptorLog with
    | some n =>
      rw [Option.isNone_some, Bool.false_and, if_neg Bool.false_ne_true, if_neg Bool.false_ne_true]
      rfl
    | none =>
      rw [Option.isNone_none, if_pos rfl]
      split_ifs
      · rfl
      · rfl

/-- **A failed `LogAndApply`.** The current version, the log numbers and the counters are as they
    were before the call. The compact pointers are those that a successful call would have left:
    for each level the last one of the edit, and what was there if the edit has none. So they are
    as they were exactly when the edit repeats the pointers that are there. -/
theorem logAndApply_error (env : ApplyEnv) (vs : VersionSet K) (edit : VersionEdit K) {s : Status}
    (h : (vs.applyOn env edit).2 = .error s) :
    let vs' := (vs.applyOn env edit).1
    (vs'.current = vs.current ∧ vs'.logNumber = vs.logNumber ∧
      vs'.prevLogNumber = vs.prevLogNumber ∧ vs'.lastSequence = vs.lastSequence ∧
      vs'.nextFileNumber = vs.nextFileNumber) ∧
    (∀ level, vs'.compactPointer level =
      (edit.lastPointer level).elim (vs.compactPointer level) pointerOf) ∧
    ((∀ level, vs'.compactPointer level = vs.compactPointer level) ↔
      ∀ level k, edit.lastPointer level = some k → vs.compactPointer level = pointerOf k) := by
  dsimp only
  rw [applyOn_error h]
  refine ⟨⟨rfl, rfl, rfl, rfl, rfl⟩, applyCompactPointers_eq _ _, ?_⟩
  simp only [applyCompactPointers_eq]
  constructor
  · intro hsame level k hk
    rw [← hsame level, hk]
    rfl
  · intro hrepeats level
    cases hk : edit.lastPointer level with
    | none => rfl
    | some k => exact (hrepeats level k hk).symm

/-! The first call after `Recover` cannot create its manifest. -/

def noManifest : ApplyEnv := { newWritableFile := some (.ioError "MANIFEST-000002") }

theorem logAndApply_error_noManifest :
    ((VersionSet.init : VersionSet Nat).applyOn noManifest { logNumber := some 3 }).2 =
      .error (.ioError "MANIFEST-000002") ∧
    ((VersionSet.init : VersionSet Nat).applyOn noManifest { logNumber := some 3 }).1.logNumber = 0 ∧
    ∀ level, ((VersionSet.init : VersionSet Nat).applyOn noManifest
      { logNumber := some 3 }).1.compactPointer level = none := by
  obtain ⟨⟨-, hlog, -⟩, -, hptr⟩ := logAndApply_error noManifest (VersionSet.init : VersionSet Nat)
    { logNumber := some 3 } rfl
  exact ⟨rfl, hlog, hptr.mpr fun level k hk => by cases hk⟩

/-- The pointer of an edit that could not be written stays. -/
theorem failed_edit_sets_pointer :
    ((VersionSet.init : VersionSet Nat).applyOn noManifest
      { compactPointers := [(1, ⟨7, 1281⟩)] }).2 = .error (.ioError "MANIFEST-000002") ∧
    (VersionSet.init : VersionSet Nat).compactPointer 1 = none ∧
    ((VersionSet.init : VersionSet Nat).applyOn noManifest
      { compactPointers := [(1, ⟨7, 1281⟩)] }).1.compactPointer 1 = some ⟨7, 1281⟩ := by
  decide

end VersionSet

end LevelDB
