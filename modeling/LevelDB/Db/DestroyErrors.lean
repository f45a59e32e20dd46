/-
  `DestroyDB` when the lock is not to be had or files cannot be removed (`db/db_impl.cc`,
  `util/std_file_system.cc`).

  One call, without other clients in between. The failures of the file system are given
  (`DestroyEnv`); a lock that is held already makes `LockFile` fail as well.
-/
import LevelDB.Db.Destroy

namespace LevelDB

open List Option

/-- The failures of a call of `DestroyDB`: of `GetChildren`, of `open` and `fcntl` in `LockFile`,
    and of `RemoveFile` by name, with the message of the system. -/
structure DestroyEnv where
  childrenFail : Bool
  openFails : Bool
  fcntlFails : Bool
  removeError : String → Option String

namespace Directory

/-- `LockFile` in a process, with the failures of its calls. LOCK is created even if the lock is
    not granted. -/
def lockFileIn (env : DestroyEnv) (d : Directory) (process : Nat) : Option Nat × Directory :=
  if process ∈ d.lockTable then (none, d)
  else if env.openFails then (none, d)
  else
    let inode := d.lockFile.getD d.nextInode
    let d := { d with
      lockFile := some inode
      nextInode := if d.lockFile.isNone then d.nextInode + 1 else d.nextInode }
    if env.fcntlFails ∨ ∃ l ∈ d.locks, l.1 = inode ∧ l.2 ≠ process then (none, d)
    else (some inode, { d with
      lockTable := process :: d.lockTable
      locks := (inode, process) :: d.locks })

/-- The loop of `DestroyDB`. -/
def removeFiles (env : DestroyEnv) (dbname : String) (d : Directory) :
    List String → Option Status × Directory
  | [] => (none, d)
  | name :: rest =>
    if destroys name then
      match env.removeError name with
      | some message => (some (.ioError (dbname ++ "/" ++ name ++ ": " ++ message)), d)
      | none => (d.removeFile name).removeFiles env dbname rest
    else d.removeFiles env dbname rest

/-- `DestroyDB`, with its error. -/
def destroyDb (env : DestroyEnv) (dbname : String) (d : Directory) (process : Nat) :
    Option Status × Directory :=
  if env.childrenFail then (none, d)
  else
    let filenames := d.children
    match d.lockFileIn env process with
    | (none, d) => (none, d)
    | (some inode, d) =>
      match d.removeFiles env dbname filenames with
      | (some error, d) => (some error, d)
      | (none, d) =>
        let d := d.unlock inode process
        (none, if (env.removeError "LOCK").isNone then { d with lockFile := none } else d)

/-- `LockFile` succeeds. -/
def CanLock (env : DestroyEnv) (d : Directory) (process : Nat) : Prop :=
  process ∉ d.lockTable ∧ env.openFails = false ∧ env.fcntlFails = false ∧
    ∀ l ∈ d.locks, l.1 = d.lockFile.getD d.nextInode → l.2 = process

def Emptied (d : Directory) : Prop :=
  ∀ name ∈ d.children, ∀ p, parseFileName name = some p → p.type = .dbLockFile

/-- The process does not have the lock on this inode, and can take the lock on LOCK. -/
def Released (d : Directory) (inode process : Nat) : Prop :=
  process ∉ d.lockTable ∧ (inode, process) ∉ d.locks

section Destroy

variable {env : DestroyEnv} {d : Directory} {process : Nat}

theorem lockFileIn_of_canLock (h : CanLock env d process) :
    ∃ d', d.lockFileIn env process = (some (d.lockFile.getD d.nextInode), d') ∧
      d'.files = d.files ∧ process ∈ d'.lockTable := by
  obtain ⟨htable, hopen, hfcntl, hlocks⟩ := h
  have hfree : ¬(env.fcntlFails = true ∨
      ∃ l ∈ d.locks, l.1 = d.lockFile.getD d.nextInode ∧ l.2 ≠ process) := by
    rw [hfcntl]
    rintro (hfalse | ⟨l, hl, hinode, hother⟩)
    · cases hfalse
    · exact hother (hlocks l hl hinode)
  unfold lockFileIn
  rw [if_neg htable, hopen, if_neg Bool.false_ne_true]
  dsimp only
  rw [if_neg hfree]
  exact ⟨_, rfl, rfl, mem_cons_self⟩

theorem lockFileIn_of_not_canLock (h : ¬CanLock env d process) :
    ∃ d', d.lockFileIn env process = (none, d') ∧ d'.files = d.files := by
  unfold lockFileIn
  by_cases htable : process ∈ d.lockTable
  · rw [if_pos htable]
    exact ⟨_, rfl, rfl⟩
  rw [if_neg htable]
  by_cases hopen : env.openFails = true
  · rw [if_pos hopen]
    exact ⟨_, rfl, rfl⟩
  rw [if_neg hopen]
  dsimp only
  by_cases hlocked : env.fcntlFails = true ∨
      ∃ l ∈ d.locks, l.1 = d.lockFile.getD d.nextInode ∧ l.2 ≠ process
  · rw [if_pos hlocked]
    exact ⟨_, rfl, rfl⟩
  · refine absurd ⟨htable, Bool.eq_false_of_not_eq_true hopen, ?_, ?_⟩ h
    · exact Bool.eq_false_of_not_eq_true fun hfcntl => hlocked (.inl hfcntl)
    · intro l hl hinode
      by_contra hother
      exact hlocked (.inr ⟨l, hl, hinode, hother⟩)

/-- **The loop** removes every file of the database, or stops at the first that cannot be
    removed. -/
theorem removeFiles_spec (env : DestroyEnv) (dbname : String) (d : Directory) (names : List String) :
    (d.removeFiles env dbname names).2.lockTable = d.lockTable ∧
      ((d.removeFiles env dbname names).1 = none ↔
        ∀ name ∈ names, destroys name = true → env.removeError name = none) ∧
      ((d.removeFiles env dbname names).1 = none → ∀ name,
        name ∈ (d.removeFiles env dbname names).2.files ↔
          name ∈ d.files ∧ ¬(name ∈ names ∧ destroys name = true)) := by
  induction names generalizing d with
  | nil => simp [removeFiles]
  | cons name rest ih =>
    unfold removeFiles
    by_cases hdestroys : destroys name = true
    · rw [if_pos hdestroys]
      cases herror : env.removeError name with
      | some message => simp [hdestroys, herror]
      | none =>
        obtain ⟨htable, hok, hfiles⟩ := ih (d.removeFile name)
        refine ⟨htable, ?_, ?_⟩
        · rw [forall_mem_cons]
          exact hok.trans (iff_and_self.mpr fun _ _ => herror)
        · intro hnone other
          dsimp only at hnone ⊢
          rw [hfiles hnone, removeFile, mem_filter, decide_eq_true_iff, mem_cons]
          constructor
          · rintro ⟨⟨hmem, hne⟩, hrest⟩
            exact ⟨hmem, fun ⟨h, hd⟩ => h.elim hne fun h => hrest ⟨h, hd⟩⟩
          · rintro ⟨hmem, hnot⟩
            exact ⟨⟨hmem, fun h => hnot ⟨.inl h, h ▸ hdestroys⟩⟩, fun h => hnot ⟨.inr h.1, h.2⟩⟩
    · rw [if_neg hdestroys]
      obtain ⟨htable, hok, hfiles⟩ := ih d
      refine ⟨htable, ?_, ?_⟩
      · rw [forall_mem_cons]
        exact hok.trans (iff_and_self.mpr fun _ h => absurd h hdestroys)
      · intro hnone other
        rw [hfiles hnone, mem_cons]
        constructor
        · rintro ⟨hmem, hrest⟩
          exact ⟨hmem, fun ⟨h, hd⟩ => h.elim (fun h => hdestroys (h ▸ hd)) fun h => hrest ⟨h, hd⟩⟩
        · rintro ⟨hmem, hnot⟩
          exact ⟨hmem, fun h => hnot ⟨.inr h.1, h.2⟩⟩

theorem destroys_iff {name : String} :
    destroys name = true ↔ ∃ p, parseFileName name = some p ∧ p.type ≠ .dbLockFile := by
  unfold destroys
  rw [Option.any_eq_true]
  simp only [decide_eq_true_iff]

theorem emptied_iff : Emptied d ↔ ∀ name ∈ d.files, destroys name = false := by
  have hname : ∀ name, (∀ p, parseFileName name = some p → p.type = .dbLockFile) ↔
      destroys name = false := by
    intro name
    rw [← Bool.not_eq_true, destroys_iff]
    push Not
    rfl
  unfold Emptied children
  simp only [hname, forall_mem_append]
  refine and_iff_left_of_imp fun _ name hmem => ?_
  obtain ⟨inode, -, rfl⟩ := map_eq_some_iff.mp (mem_toList.mp hmem)
  decide

theorem destroyDb_unlocked (dbname : String) (h : env.childrenFail = true ∨ ¬CanLock env d process) :
    (d.destroyDb env dbname process).1 = none ∧
      (d.destroyDb env dbname process).2.files = d.files := by
  unfold destroyDb
  by_cases hlist : env.childrenFail = true
  · rw [if_pos hlist]
    exact ⟨rfl, rfl⟩
  · rw [if_neg hlist]
    obtain ⟨d₁, hlock, hfiles⟩ := lockFileIn_of_not_canLock (h.resolve_left hlist)
    dsimp only
    rw [hlock]
    exact ⟨rfl, hfiles⟩

theorem destroyDb_locked (dbname : String) (hlist : env.childrenFail = false)
    (h : CanLock env d process) :
    ((∀ name ∈ d.files, destroys name = true → env.removeError name = none) ∧
        (d.destroyDb env dbname process).1 = none ∧ Emptied (d.destroyDb env dbname process).2 ∧
        Released (d.destroyDb env dbname process).2 (d.lockFile.getD d.nextInode) process) ∨
      ((∃ name ∈ d.files, destroys name = true ∧ env.removeError name ≠ none) ∧
        (d.destroyDb env dbname process).1 ≠ none ∧
        process ∈ (d.destroyDb env dbname process).2.lockTable) := by
  obtain ⟨d₁, hlock, hfiles₁, hheld⟩ := lockFileIn_of_canLock h
  obtain ⟨htable, hok, hremoved⟩ := removeFiles_spec env dbname d₁ d.children
  have hmem : ∀ name ∈ d.children, destroys name = true → name ∈ d.files := by
    intro name hname hdestroys
    rcases mem_append.mp hname with hname | hname
    · exact hname
    · obtain ⟨inode, -, rfl⟩ := map_eq_some_iff.mp (mem_toList.mp hname)
      exact absurd hdestroys (by decide)
  unfold destroyDb
  rw [hlist, if_neg Bool.false_ne_true]
  dsimp only
  rw [hlock]
  dsimp only
  cases hloop : d₁.removeFiles env dbname d.children with
  | mk error d₂ =>
    rw [hloop] at htable hok hremoved
    cases error with
    | some error =>
      refine .inr ⟨?_, some_ne_none _, ?_⟩
      · by_contra hnone
        push Not at hnone
        exact some_ne_none _
          (hok.mpr fun name hname hdestroys => hnone name (hmem name hname hdestroys) hdestroys)
      · dsimp only at htable ⊢
        rw [htable]
        exact hheld
    | none =>
      refine .inl ⟨fun name hname => hok.mp rfl name (mem_append_left _ hname), rfl, ?_, ?_⟩
      · have hleft : ∀ name ∈ d₂.files, destroys name = false := by
          intro name hname
          obtain ⟨hfile, hnot⟩ := (hremoved rfl name).mp hname
          rw [hfiles₁] at hfile
          rw [← Bool.not_eq_true]
          exact fun hdestroys => hnot ⟨mem_append_left _ hfile, hdestroys⟩
        dsimp only
        split_ifs
        · exact emptied_iff.mpr hleft
        · exact emptied_iff.mpr hleft
      · have hreleased : Released (d₂.unlock (d.lockFile.getD d.nextInode) process)
            (d.lockFile.getD d.nextInode) process := by
          unfold Released unlock
          simp
        dsimp only
        split_ifs
        · exact hreleased
        · exact hreleased

/-- **`DestroyDB`** tells the truth and releases the lock, exactly when files of the database that
    are in the directory are listed and locked, and each can be removed. -/
theorem destroyDb_truthful_iff (env : DestroyEnv) (dbname : String) (d : Directory) (process : Nat) :
    (((d.destroyDb env dbname process).1 = none → Emptied (d.destroyDb env dbname process).2) ∧
      (env.childrenFail = false → CanLock env d process →
        Released (d.destroyDb env dbname process).2 (d.lockFile.getD d.nextInode) process)) ↔
    ∀ name ∈ d.files, destroys name = true →
      env.childrenFail = false ∧ CanLock env d process ∧ env.removeError name = none := by
  by_cases h : env.childrenFail = true ∨ ¬CanLock env d process
  · obtain ⟨hok, hfiles⟩ := destroyDb_unlocked dbname h
    have hlocked : ¬(env.childrenFail = false ∧ CanLock env d process) := by
      rintro ⟨hlist, hlock⟩
      rw [hlist] at h
      exact h.elim (fun h => Bool.false_ne_true h) fun h => h hlock
    rw [emptied_iff, hfiles]
    constructor
    · intro ⟨htruth, _⟩ name hname hdestroys
      rw [htruth hok name hname] at hdestroys
      cases hdestroys
    · intro hall
      refine ⟨fun _ name hname => ?_, fun hlist hlock => absurd ⟨hlist, hlock⟩ hlocked⟩
      rw [← Bool.not_eq_true]
      intro hdestroys
      obtain ⟨hlist, hlock, -⟩ := hall name hname hdestroys
      exact hlocked ⟨hlist, hlock⟩
  · push Not at h
    obtain ⟨hlist, hlock⟩ := h
    replace hlist := Bool.eq_false_of_not_eq_true hlist
    rcases destroyDb_locked dbname hlist hlock with
      ⟨hremove, -, hempty, hreleased⟩ | ⟨⟨name, hname, hdestroys, hremove⟩, -, hheld⟩
    · exact iff_of_true ⟨fun _ => hempty, fun _ _ => hreleased⟩
        fun name hname hdestroys => ⟨hlist, hlock, hremove name hname hdestroys⟩
    · exact iff_of_false (fun hall => (hall.2 hlist hlock).1 hheld)
        fun hall => hremove (hall name hname hdestroys).2.2

end Destroy

/-- With the lock held by another process the result is OK and the files are still there. When a
    file cannot be removed the lock stays taken. -/
theorem destroyDb_lies :
    (let env : DestroyEnv := ⟨false, false, false, fun _ => none⟩
      let d : Directory := ⟨["CURRENT"], some 1, 2, [8], [(1, 8)]⟩
      (d.destroyDb env "db" 7).1 = none ∧ ¬Emptied (d.destroyDb env "db" 7).2) ∧
    (let env : DestroyEnv := ⟨false, false, false, fun name =>
        if name = "CURRENT" then some "Operation not permitted" else none⟩
      let d : Directory := ⟨["CURRENT"], some 1, 2, [], []⟩
      CanLock env d 7 ∧ ¬Released (d.destroyDb env "db" 7).2 1 7 ∧
        ((d.destroyDb env "db" 7).2.lockFileIn ⟨false, false, false, fun _ => none⟩ 7).1 = none) := by
  refine ⟨⟨by decide, ?_⟩, ⟨by decide, by decide, by decide, by simp⟩, ?_, by decide⟩
  · intro hempty
    exact absurd (hempty "CURRENT" (by decide) ⟨0, .currentFile⟩ (by decide)) (by decide)
  · rintro ⟨hfree, -⟩
    exact absurd hfree (by decide)

end Directory

end LevelDB
