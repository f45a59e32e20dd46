/-
  The switch of CURRENT (`db/filename.cc`, `util/std_file_system.cc`): `SetCurrentFile` and
  the `RenameFile` it calls.

  `setCurrentFile` returns the directories it passes through, so that the process can stop
  between any two file operations, and takes the outcome of each operation from a
  `SwitchEnv`. A rename that reports an error has changed nothing.
-/
import LevelDB.Db.Disk

namespace LevelDB

open List Function

/-! ## File names -/

/-- `%06llu`. -/
def sixDigits (number : Nat) : String :=
  String.ofList (List.replicate (6 - (Nat.toDigits 10 number).length) '0' ++ Nat.toDigits 10 number)

def makeFileName (dbname : String) (number : Nat) (suffix : String) : String :=
  dbname ++ "/" ++ sixDigits number ++ suffix

def descriptorFileName (dbname : String) (number : Nat) : String :=
  dbname ++ "/MANIFEST-" ++ sixDigits number

def currentFileName (dbname : String) : String := dbname ++ "/CURRENT"

def tempFileName (dbname : String) (number : Nat) : String := makeFileName dbname number ".dbtmp"

theorem tempFileName_ne_currentFileName (dbname : String) (number : Nat) :
    tempFileName dbname number ≠ currentFileName dbname := by
  intro h
  have hlast := congrArg (fun s : String => s.toList.reverse.head?) h
  simp [tempFileName, currentFileName, makeFileName] at hlast

/-! ## The code -/

abbrev Files := String → Option String

/-- The error codes of the file operations of one `SetCurrentFile`, in the order of the calls;
    `none` is success. The contents are what the temporary file holds when `Append` has
    returned and when `Sync` has failed. -/
structure SwitchEnv where
  newWritableFile : Option Status := none
  append : Option Status := none
  appended : String := ""
  sync : Option Status := none
  flushed : String := ""
  close : Option Status := none
  rename : Option String := none
  remove : Option String := none
  renameAgain : Option String := none
  removeTmp : Option String := none

/-- What a call has done: the files at the points before its end, at its end, and its
    result. -/
structure Switched where
  passed : List Files
  files : Files
  result : Except Status Unit

/-- `std::filesystem::rename` when it succeeds. -/
def renamed (src target : String) (files : Files) : Files :=
  Function.update (Function.update files target (files src)) src none

/-- `std::filesystem::remove`, with its error code. -/
def removed (error : Option String) (path : String) (files : Files) : Files :=
  if error.isNone then Function.update files path none else files

def renameFile (env : SwitchEnv) (src target : String) (files : Files) : Switched :=
  match env.rename with
  | none => ⟨[files], renamed src target files, .ok ()⟩
  | some ec =>
    if (files target).isSome then
      let files₁ := removed env.remove target files
      match env.renameAgain with
      | none => ⟨[files, files₁], renamed src target files₁, .ok ()⟩
      | some ec => ⟨[files, files₁], files₁, .error (.ioError (src ++ ": " ++ ec))⟩
    else ⟨[files], files, .error (.ioError (src ++ ": " ++ ec))⟩

/-- The text that `SetCurrentFile` writes. -/
def currentContents (dbname : String) (descriptorNumber : Nat) : String :=
  let manifest := descriptorFileName dbname descriptorNumber
  let contents := String.ofList (manifest.toList.drop (dbname.length + 1))
  if contents.toList.getLast? = some '\n' then contents else contents.push '\n'

def setCurrentFile (env : SwitchEnv) (dbname : String) (descriptorNumber : Nat) (files : Files) :
    Switched :=
  let contents := currentContents dbname descriptorNumber
  let tmp := tempFileName dbname descriptorNumber
  let holds : String → Files := fun text => Function.update files tmp (some text)
  match env.newWritableFile with
  | some s => ⟨[files], files, .error s⟩
  | none =>
    match env.append with
    | some s =>
      ⟨[files, holds "", holds env.appended], removed env.removeTmp tmp (holds env.appended), .error s⟩
    | none =>
      match env.sync with
      | some s =>
        ⟨[files, holds "", holds env.appended, holds env.flushed],
          removed env.removeTmp tmp (holds env.flushed), .error s⟩
      | none =>
        let passed := [files, holds "", holds env.appended, holds contents]
        match env.close with
        | some s => ⟨passed, removed env.removeTmp tmp (holds contents), .error s⟩
        | none =>
          let r := renameFile env tmp (currentFileName dbname) (holds contents)
          match r.result with
          | .ok () => ⟨passed ++ r.passed, r.files, .ok ()⟩
          | .error s => ⟨passed ++ r.passed ++ [r.files], removed env.removeTmp tmp r.files, .error s⟩

theorem sixDigits_getLast_ne (n : Nat) : (sixDigits n).toList.getLast? ≠ some '\n' := by
  intro h
  have hmem := mem_of_getLast? h
  rw [sixDigits, String.toList_ofList, mem_append] at hmem
  obtain hmem | hmem := hmem
  · exact absurd (eq_of_mem_replicate hmem) (by decide)
  · exact absurd (Nat.isDigit_of_mem_toDigits (by decide) (le_refl 10) hmem) (by decide)

theorem sixDigits_ne_nil (n : Nat) : (sixDigits n).toList ≠ [] := by
  rw [sixDigits, String.toList_ofList]
  simp [Nat.toDigits_ne_nil]

theorem currentContents_eq (dbname : String) (n : Nat) :
    currentContents dbname n = "MANIFEST-" ++ sixDigits n ++ "\n" := by
  have hdrop : (descriptorFileName dbname n).toList.drop (dbname.length + 1) =
      ("MANIFEST-" ++ sixDigits n).toList := by
    unfold descriptorFileName
    rw [← String.length_toList]
    simp [drop_append]
  have hlast : ("MANIFEST-" ++ sixDigits n).toList.getLast? ≠ some '\n' := by
    rw [String.toList_append, getLast?_append_of_ne_nil _ (sixDigits_ne_nil n)]
    exact sixDigits_getLast_ne n
  unfold currentContents
  dsimp only
  rw [hdrop, String.ofList_toList, if_neg hlast, String.push_eq_append]
  rfl

/-! ## Atomic switches -/

/-- At every point `path` has its old content or the new one, and if the call returns an error
    it has the old one. -/
structure Switched.Atomic (s : Switched) (path : String) (old : Option String) (new : String) :
    Prop where
  content : ∀ files ∈ s.passed ++ [s.files], files path = old ∨ files path = some new
  error : ∀ e, s.result = .error e → s.files path = old

section Rename

variable {env : SwitchEnv} {src target : String} {files : Files}

theorem renamed_target (hne : src ≠ target) : renamed src target files target = files src := by
  unfold renamed
  rw [update_of_ne hne.symm, update_self]

theorem removed_of_ne {error : Option String} {path : String} (hne : src ≠ path) :
    removed error src files path = files path := by
  unfold removed
  split_ifs
  · exact update_of_ne hne.symm _ _
  · rfl

theorem renameFile_atomic_iff {new : String} (hne : src ≠ target) (hsrc : files src = some new) :
    (renameFile env src target files).Atomic target (files target) new ↔
      env.rename = none ∨ files target = none ∨ env.remove ≠ none := by
  have hdone : ∀ {f : Files}, f src = files src → renamed src target f target = some new :=
    fun hf => (renamed_target hne).trans (hf.trans hsrc)
  unfold renameFile
  cases hr : env.rename with
  | none =>
    refine ⟨fun _ => Or.inl rfl, fun _ => ⟨?_, fun e h => by cases h⟩⟩
    intro f hf
    obtain rfl | rfl := mem_pair.mp hf
    · exact Or.inl rfl
    · exact Or.inr (hdone rfl)
  | some ec =>
    dsimp only
    cases ht : files target with
    | none =>
      refine ⟨fun _ => Or.inr (Or.inl rfl), fun _ => ⟨?_, fun _ _ => ht⟩⟩
      intro f hf
      obtain rfl | rfl := mem_pair.mp hf
      · exact Or.inl ht
      · exact Or.inl ht
    | some text =>
      rw [if_pos (by rfl)]
      cases hm : env.remove with
      | some ec' =>
        -- nothing is removed: what is left is the second rename
        refine ⟨fun _ => Or.inr (Or.inr (Option.some_ne_none _)), fun _ => ?_⟩
        have hsame : removed (some ec') target files = files := rfl
        rw [hsame]
        cases env.renameAgain with
        | none =>
          refine ⟨?_, fun e h => by cases h⟩
          intro f hf
          have hf' : f = files ∨ f = renamed src target files := by simpa using hf
          obtain rfl | rfl := hf'
          · exact Or.inl ht
          · exact Or.inr (hdone rfl)
        | some ec'' =>
          refine ⟨?_, fun _ _ => ht⟩
          intro f hf
          have hf' : f = files := by simpa using hf
          rw [hf']
          exact Or.inl ht
      | none =>
        refine ⟨fun h => ?_, fun h => by simp at h⟩
        exfalso
        have hgone : removed none target files target = none := update_self _ _ _
        have hmem : removed none target files ∈
            (match env.renameAgain with
              | none => (⟨[files, removed none target files],
                  renamed src target (removed none target files), .ok ()⟩ : Switched)
              | some ec => ⟨[files, removed none target files], removed none target files,
                  .error (.ioError (src ++ ": " ++ ec))⟩).passed := by
          cases env.renameAgain <;> simp
        obtain h | h := h.content _ (mem_append_left _ hmem)
        · rw [hgone] at h
          cases h
        · rw [hgone] at h
          cases h

end Rename

section Switch

variable {env : SwitchEnv} {dbname : String} {n : Nat} {files : Files}

/-- The temporary file is written, so that `RenameFile` is called. -/
def SwitchEnv.Writes (env : SwitchEnv) : Prop :=
  env.newWritableFile = none ∧ env.append = none ∧ env.sync = none ∧ env.close = none

theorem setCurrentFile_of_not_writes (h : ¬ env.Writes) :
    (∃ e, (setCurrentFile env dbname n files).result = .error e) ∧
      ∀ f ∈ (setCurrentFile env dbname n files).passed ++ [(setCurrentFile env dbname n files).files],
        f (currentFileName dbname) = files (currentFileName dbname) := by
  have hne := tempFileName_ne_currentFileName dbname n
  have hholds : ∀ text, Function.update files (tempFileName dbname n) (some text)
      (currentFileName dbname) = files (currentFileName dbname) :=
    fun text => update_of_ne hne.symm _ _
  unfold setCurrentFile
  cases h1 : env.newWritableFile with
  | some s => simp
  | none =>
    cases h2 : env.append with
    | some s => simp [hholds, removed_of_ne hne]
    | none =>
      cases h3 : env.sync with
      | some s => simp [hholds, removed_of_ne hne]
      | none =>
        cases h4 : env.close with
        | some s => simp [hholds, removed_of_ne hne]
        | none => exact absurd ⟨h1, h2, h3, h4⟩ h

theorem setCurrentFile_atomic_of_writes {new : String} (h : env.Writes) :
    (setCurrentFile env dbname n files).Atomic (currentFileName dbname)
        (files (currentFileName dbname)) new ↔
      (renameFile env (tempFileName dbname n) (currentFileName dbname)
        (Function.update files (tempFileName dbname n) (some (currentContents dbname n)))).Atomic
        (currentFileName dbname) (files (currentFileName dbname)) new := by
  have hne := tempFileName_ne_currentFileName dbname n
  have hholds : ∀ text, Function.update files (tempFileName dbname n) (some text)
      (currentFileName dbname) = files (currentFileName dbname) :=
    fun text => update_of_ne hne.symm _ _
  have hbefore : ∀ f ∈ [files, Function.update files (tempFileName dbname n) (some ""),
      Function.update files (tempFileName dbname n) (some env.appended),
      Function.update files (tempFileName dbname n) (some (currentContents dbname n))],
      f (currentFileName dbname) = files (currentFileName dbname) := by
    simp [hholds]
  obtain ⟨h1, h2, h3, h4⟩ := h
  unfold setCurrentFile
  rw [h1, h2, h3, h4]
  dsimp only
  generalize renameFile env (tempFileName dbname n) (currentFileName dbname)
    (Function.update files (tempFileName dbname n) (some (currentContents dbname n))) = r
  cases hr : r.result with
  | ok u =>
    constructor
    · intro h
      refine ⟨fun f hf => h.content f ?_, fun e he => ?_⟩
      · rw [append_assoc]
        exact mem_append_right _ hf
      · rw [hr] at he
        cases he
    · intro h
      refine ⟨fun f hf => ?_, fun e he => by cases he⟩
      rw [append_assoc] at hf
      obtain hf | hf := mem_append.mp hf
      · exact Or.inl (hbefore f hf)
      · exact h.content f hf
  | error s =>
    constructor
    · intro h
      refine ⟨fun f hf => h.content f (mem_append_left _ ?_), fun e _ => ?_⟩
      · rw [append_assoc]
        exact mem_append_right _ hf
      · rw [← h.error s rfl]
        exact (removed_of_ne hne).symm
    · intro h
      have hend : removed env.removeTmp (tempFileName dbname n) r.files (currentFileName dbname) =
          files (currentFileName dbname) := (removed_of_ne hne).trans (h.error s hr)
      refine ⟨fun f hf => ?_, fun e _ => hend⟩
      rw [append_assoc, append_assoc] at hf
      obtain hf | hf := mem_append.mp hf
      · exact Or.inl (hbefore f hf)
      · rw [← append_assoc] at hf
        obtain hf | hf := mem_append.mp hf
        · exact h.content f hf
        · rw [mem_singleton.mp hf]
          exact Or.inl hend

theorem setCurrentFile_atomic (env : SwitchEnv) (dbname : String) (n : Nat) (files : Files) :
    (setCurrentFile env dbname n files).Atomic (currentFileName dbname)
        (files (currentFileName dbname)) ("MANIFEST-" ++ sixDigits n ++ "\n") ↔
      (env.Writes → env.rename = none ∨ files (currentFileName dbname) = none ∨
        env.remove ≠ none) := by
  by_cases hw : env.Writes
  · have hne := tempFileName_ne_currentFileName dbname n
    obtain ⟨files₁, hfiles₁⟩ : ∃ f, f = Function.update files (tempFileName dbname n)
      (some (currentContents dbname n)) := ⟨_, rfl⟩
    have hcur : files₁ (currentFileName dbname) = files (currentFileName dbname) := by
      rw [hfiles₁]
      exact update_of_ne hne.symm _ _
    have hsrc : files₁ (tempFileName dbname n) = some ("MANIFEST-" ++ sixDigits n ++ "\n") := by
      rw [hfiles₁, update_self, currentContents_eq]
    have hrename : (renameFile env (tempFileName dbname n) (currentFileName dbname) files₁).Atomic
        (currentFileName dbname) (files₁ (currentFileName dbname))
        ("MANIFEST-" ++ sixDigits n ++ "\n") ↔ env.rename = none ∨
          files₁ (currentFileName dbname) = none ∨ env.remove ≠ none :=
      renameFile_atomic_iff hne hsrc
    rw [hcur, hfiles₁] at hrename
    rw [setCurrentFile_atomic_of_writes hw, hrename]
    exact ⟨fun h _ => h, fun h => h hw⟩
  · obtain ⟨⟨e, he⟩, hsame⟩ := setCurrentFile_of_not_writes hw
    refine ⟨fun _ h => absurd h hw, fun _ => ⟨fun f hf => Or.inl (hsame f hf), fun _ _ => ?_⟩⟩
    exact hsame _ (mem_append_right _ (mem_singleton.mpr rfl))

/-- The switch is atomic, and an error leaves CURRENT as it was, exactly if `RenameFile` does
    not come to remove it. -/
theorem setCurrentFile_atomic_iff (env : SwitchEnv) (dbname : String) (n : Nat) (files : Files) :
    ((∀ f ∈ (setCurrentFile env dbname n files).passed ++ [(setCurrentFile env dbname n files).files],
        (files (currentFileName dbname) ≠ none → f (currentFileName dbname) ≠ none) ∧
          (f (currentFileName dbname) = files (currentFileName dbname) ∨
            f (currentFileName dbname) = some ("MANIFEST-" ++ sixDigits n ++ "\n"))) ∧
      ∀ e, (setCurrentFile env dbname n files).result = .error e →
        (setCurrentFile env dbname n files).files (currentFileName dbname) =
          files (currentFileName dbname)) ↔
      (env.Writes → env.rename = none ∨ files (currentFileName dbname) = none ∨
        env.remove ≠ none) := by
  rw [← setCurrentFile_atomic]
  refine ⟨fun h => ⟨fun f hf => (h.1 f hf).2, h.2⟩, fun h => ⟨fun f hf => ⟨?_, h.content f hf⟩,
    h.error⟩⟩
  intro hold
  obtain hf | hf := h.content f hf
  · rw [hf]
    exact hold
  · rw [hf]
    exact Option.some_ne_none _

def renamesFail : SwitchEnv where
  rename := some "Permission denied"
  renameAgain := some "Permission denied"

def namesFirst : Files :=
  Function.update (fun _ => none) "/db/CURRENT" (some "MANIFEST-000001\n")

/-- The first rename fails, CURRENT is removed, and the second rename fails as well: the call
    returns an error and CURRENT is gone. -/
theorem current_lost :
    namesFirst (currentFileName "/db") = some "MANIFEST-000001\n" ∧
      (setCurrentFile renamesFail "/db" 5 namesFirst).result =
        .error (.ioError "/db/000005.dbtmp: Permission denied") ∧
      (setCurrentFile renamesFail "/db" 5 namesFirst).files (currentFileName "/db") = none ∧
      ¬ (setCurrentFile renamesFail "/db" 5 namesFirst).Atomic (currentFileName "/db")
        (namesFirst (currentFileName "/db")) "MANIFEST-000005\n" := by
  have hgone : (setCurrentFile renamesFail "/db" 5 namesFirst).files (currentFileName "/db") =
      none := by decide
  have hresult : (setCurrentFile renamesFail "/db" 5 namesFirst).result =
      .error (.ioError "/db/000005.dbtmp: Permission denied") := by decide
  have hold : namesFirst (currentFileName "/db") = some "MANIFEST-000001\n" := by decide
  refine ⟨hold, hresult, hgone, ?_⟩
  intro h
  have hkept := h.error _ hresult
  rw [hgone, hold] at hkept
  cases hkept

end Switch

/-! ## CURRENT in the model of the disk -/

variable {K V : Type} [LinearOrder K]

end LevelDB
