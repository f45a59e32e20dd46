/-
  `DestroyDB` and the LOCK file (`db/db_impl.cc`, `util/std_file_system.cc`).

  Clients of one directory, in any number of processes, each make a sequence of calls: opening a
  database, closing it, and `DestroyDB`. Other clients may act between any two steps of `DestroyDB`.
  `DB::Open` does not look at the lock.
-/
import LevelDB.Db.FileName
import LevelDB.Lib.Trace

namespace LevelDB

open List Option Function Transition

/-! ## The directory and its lock -/

/-- The directory: its files but for LOCK, the inode of LOCK, and the locks. `lockTable` has the
    processes in whose lock table the path is, `locks` the `fcntl` locks by inode and process. -/
structure Directory where
  files : List String
  lockFile : Option Nat
  nextInode : Nat
  lockTable : List Nat
  locks : List (Nat × Nat)

namespace Directory

/-- `GetChildren`. -/
def children (d : Directory) : List String := d.files ++ (d.lockFile.map fun _ => "LOCK").toList

/-- `LockFile` in a process, with the inode that is locked. LOCK is created if it is missing. -/
def lock (d : Directory) (process : Nat) : Option (Nat × Directory) :=
  let inode := d.lockFile.getD d.nextInode
  if process ∈ d.lockTable ∨ ∃ l ∈ d.locks, l.1 = inode ∧ l.2 ≠ process then none
  else some (inode, { d with
    lockFile := some inode
    nextInode := if d.lockFile.isNone then d.nextInode + 1 else d.nextInode
    lockTable := process :: d.lockTable
    locks := (inode, process) :: d.locks })

theorem lock_of_free {d : Directory} (htable : d.lockTable = []) (hlocks : d.locks = [])
    (process : Nat) : ∃ inode d', d.lock process = some (inode, d') ∧ d'.files = d.files := by
  unfold lock
  rw [htable, hlocks]
  exact ⟨_, _, if_neg (by simp), rfl⟩

/-- `UnlockFile`. -/
def unlock (d : Directory) (inode process : Nat) : Directory :=
  { d with
    lockTable := d.lockTable.filter fun p => p ≠ process
    locks := d.locks.filter fun l => l ≠ (inode, process) }

/-- `RemoveFile`, for a file other than LOCK. -/
def removeFile (d : Directory) (name : String) : Directory :=
  { d with files := d.files.filter fun f => f ≠ name }

end Directory

/-! ## Clients -/

inductive Call where
  | openDb
  | closeDb
  | destroyDb
  deriving DecidableEq, Repr

/-- Where a `DestroyDB` is: after `GetChildren`, at the files to remove, and after `UnlockFile`. -/
inductive Destroying where
  | listed (filenames : List String)
  | removing (inode : Nat) (rest : List String)
  | unlocked

/-- A client: its process, the calls it still makes, the handles it has, and the `DestroyDB` it
    is in. -/
structure Client where
  process : Nat
  program : List Call
  handles : Nat
  destroying : Option Destroying

/-- `DestroyDB` removes files of this name. -/
def destroys (name : String) : Bool := (parseFileName name).any fun p => p.type ≠ .dbLockFile

structure Clients where
  directory : Directory
  client : Nat → Client

/-- What a step does to the directory, as far as `DestroyDB` is concerned. -/
inductive Removal where
  | none
  | removed (name : String)

namespace Clients

def set (st : Clients) (i : Nat) (c : Client) : Clients :=
  { st with client := Function.update st.client i c }

/-- The steps of client `i`. A call of `DB::Open` may create and remove files of its own, as a
    live database may; when it succeeds there is a CURRENT. -/
inductive Step : Clients → Removal → Clients → Prop where
  | openDb {st : Clients} {i : Nat} {rest : List Call} {files : List String}
      (hidle : (st.client i).destroying = none) (hcall : (st.client i).program = .openDb :: rest)
      (hcurrent : "CURRENT" ∈ files) :
      Step st .none ({ st with directory := { st.directory with files := files } }.set i
        { st.client i with program := rest, handles := (st.client i).handles + 1 })
  | openFails {st : Clients} {i : Nat} {rest : List Call} {files : List String}
      (hidle : (st.client i).destroying = none) (hcall : (st.client i).program = .openDb :: rest) :
      Step st .none ({ st with directory := { st.directory with files := files } }.set i
        { st.client i with program := rest })
  | closeDb {st : Clients} {i : Nat} {rest : List Call}
      (hidle : (st.client i).destroying = none) (hcall : (st.client i).program = .closeDb :: rest) :
      Step st .none (st.set i
        { st.client i with program := rest, handles := (st.client i).handles - 1 })
  | work {st : Clients} {i : Nat} {files : List String} (hlive : 0 < (st.client i).handles) :
      Step st .none { st with directory := { st.directory with files := files } }
  | destroyDb {st : Clients} {i : Nat} {rest : List Call}
      (hidle : (st.client i).destroying = none)
      (hcall : (st.client i).program = .destroyDb :: rest) :
      Step st .none (st.set i { st.client i with
        program := rest, destroying := some (.listed st.directory.children) })
  | noChildren {st : Clients} {i : Nat} {rest : List Call}
      (hidle : (st.client i).destroying = none)
      (hcall : (st.client i).program = .destroyDb :: rest) :
      Step st .none (st.set i { st.client i with program := rest })
  | lock {st : Clients} {i : Nat} {filenames : List String} {inode : Nat} {d : Directory}
      (hat : (st.client i).destroying = some (.listed filenames))
      (hlock : st.directory.lock (st.client i).process = some (inode, d)) :
      Step st .none ({ st with directory := d }.set i
        { st.client i with destroying := some (.removing inode filenames) })
  | lockFails {st : Clients} {i : Nat} {filenames : List String}
      (hat : (st.client i).destroying = some (.listed filenames)) :
      Step st .none (st.set i { st.client i with destroying := none })
  | skip {st : Clients} {i inode : Nat} {name : String} {rest : List String}
      (hat : (st.client i).destroying = some (.removing inode (name :: rest)))
      (hname : destroys name = false ∨ name ∉ st.directory.files) :
      Step st .none (st.set i { st.client i with destroying := some (.removing inode rest) })
  | remove {st : Clients} {i inode : Nat} {name : String} {rest : List String}
      (hat : (st.client i).destroying = some (.removing inode (name :: rest)))
      (hname : destroys name = true) (hthere : name ∈ st.directory.files) :
      Step st (.removed name) ({ st with directory := st.directory.removeFile name }.set i
        { st.client i with destroying := some (.removing inode rest) })
  -- the error is returned without releasing the lock
  | removeFails {st : Clients} {i inode : Nat} {name : String} {rest : List String}
      (hat : (st.client i).destroying = some (.removing inode (name :: rest)))
      (hname : destroys name = true) :
      Step st .none (st.set i { st.client i with destroying := none })
  | unlock {st : Clients} {i inode : Nat}
      (hat : (st.client i).destroying = some (.removing inode [])) :
      Step st .none ({ st with directory := st.directory.unlock inode (st.client i).process }.set i
        { st.client i with destroying := some .unlocked })
  | removeLock {st : Clients} {i inode : Nat} (hat : (st.client i).destroying = some .unlocked)
      (hthere : st.directory.lockFile = some inode) :
      Step st (.removed "LOCK") ({ st with directory := { st.directory with lockFile := none } }.set
        i { st.client i with destroying := none })
  | finish {st : Clients} {i : Nat} (hat : (st.client i).destroying = some .unlocked) :
      Step st .none (st.set i { st.client i with destroying := none })

def start (files : List String) (lockFile : Option Nat) (process : Nat → Nat)
    (programs : Nat → List Call) : Clients where
  directory := ⟨files, lockFile, lockFile.elim 0 (· + 1), [], []⟩
  client i := ⟨process i, programs i, 0, none⟩

/-! ## The property -/

def OneHandle (st : Clients) : Prop :=
  (∀ i, (st.client i).handles ≤ 1) ∧
    ∀ i j, i ≠ j → (st.client i).handles = 0 ∨ (st.client j).handles = 0

/-- In every interleaving no two handles are live at the same time, and `DestroyDB` removes
    nothing while one is. -/
def Respected (st₀ : Clients) : Prop :=
  ∀ events st, Trace st₀ Step events st → st.OneHandle ∧
    ∀ name st', Step st (.removed name) st' → ∀ i, (st.client i).handles = 0

/-- The calls keep apart by themselves: a client closes its handle before it makes another call,
    and if one client opens the database then no other client opens or destroys it. -/
def Apart (programs : Nat → List Call) : Prop :=
  (∀ i, (programs i).IsChain fun a b => a = .openDb → b = .closeDb) ∧
    ∀ i j, i ≠ j → .openDb ∈ programs i → .openDb ∉ programs j ∧ .destroyDb ∉ programs j

end Clients

/-! ## Calls that keep apart -/

/-- What holds of a client with the calls `program`: what it has still to do, that a handle is
    closed by its next call, and that it is in `DestroyDB` only if it calls it. -/
structure Client.Inv (program : List Call) (c : Client) : Prop where
  suffix : ∃ done, program = done ++ c.program
  live : 0 < c.handles → c.handles = 1 ∧ .openDb ∈ program ∧ c.destroying = none ∧
    ∀ call ∈ c.program.head?, call = .closeDb
  destroying : c.destroying ≠ none → .destroyDb ∈ program

namespace Client.Inv

variable {program : List Call} {c : Client} {call : Call} {rest : List Call}

theorem handles_eq_zero (h : c.Inv program) (hcall : c.program = call :: rest)
    (hne : call ≠ .closeDb) : c.handles = 0 := by
  by_contra hpos
  obtain ⟨-, -, -, hhead⟩ := h.live (Nat.pos_of_ne_zero hpos)
  rw [hcall] at hhead
  exact hne (hhead call rfl)

theorem mem_of_call (h : c.Inv program) (hcall : c.program = call :: rest) : call ∈ program := by
  obtain ⟨done, hdone⟩ := h.suffix
  rw [hdone, hcall]
  exact mem_append_right _ mem_cons_self

theorem at_destroying (h : c.Inv program) {d : Destroying} (hat : c.destroying = some d)
    (d' : Option Destroying) : Client.Inv program { c with destroying := d' } where
  suffix := h.suffix
  live := fun hlive => absurd (h.live hlive).2.2.1 (by rw [hat]; exact some_ne_none d)
  destroying := fun _ => h.destroying (by rw [hat]; exact some_ne_none d)

theorem suffix_rest (h : c.Inv program) (hcall : c.program = call :: rest) :
    ∃ done, program = done ++ rest := by
  obtain ⟨done, hdone⟩ := h.suffix
  exact ⟨done ++ [call], by rw [hdone, hcall, append_assoc]; rfl⟩

theorem next (h : c.Inv program) (hcall : c.program = call :: rest) {handles : Nat}
    (hzero : handles = 0) {d : Option Destroying} (hd : d ≠ none → .destroyDb ∈ program) :
    Client.Inv program ⟨c.process, rest, handles, d⟩ where
  suffix := h.suffix_rest hcall
  live := fun hlive => absurd hzero hlive.ne'
  destroying := hd

theorem opened (h : c.Inv program) (hchain : program.IsChain fun a b => a = .openDb → b = .closeDb)
    (hidle : c.destroying = none) (hcall : c.program = .openDb :: rest) :
    Client.Inv program { c with program := rest, handles := c.handles + 1 } where
  suffix := h.suffix_rest hcall
  live := by
    intro _
    refine ⟨by rw [h.handles_eq_zero hcall (by decide)], h.mem_of_call hcall, hidle, ?_⟩
    obtain ⟨done, hdone⟩ := h.suffix
    rw [hdone, hcall] at hchain
    exact fun call hhead => (isChain_cons.mp (isChain_append.mp hchain).2.1).1 call hhead rfl
  destroying := fun hd => absurd hidle hd

end Client.Inv

namespace Clients

section Apart

variable {programs : Nat → List Call} {st st' : Clients} {e : Removal}

theorem inv_set {c : Client} {i : Nat} (h : ∀ j, (st.client j).Inv (programs j))
    (hi : c.Inv (programs i)) (d : Directory) (j : Nat) :
    (({ st with directory := d }.set i c).client j).Inv (programs j) := by
  unfold set
  dsimp only
  by_cases hij : j = i
  · subst hij
    rw [update_self]
    exact hi
  · rw [update_of_ne hij]
    exact h j

theorem Step.inv (hchain : ∀ i, (programs i).IsChain fun a b => a = .openDb → b = .closeDb)
    (h : ∀ j, (st.client j).Inv (programs j)) (hstep : Step st e st') :
    ∀ j, (st'.client j).Inv (programs j) := by
  cases hstep with
  | @openDb i rest files hidle hcall hcurrent =>
    exact inv_set h ((h i).opened (hchain i) hidle hcall) _
  | @openFails i rest files hidle hcall =>
    exact inv_set h ((h i).next hcall ((h i).handles_eq_zero hcall (by decide))
      fun hd => absurd hidle hd) _
  | @closeDb i rest hidle hcall =>
    have hzero : (st.client i).handles - 1 = 0 := by
      by_cases hpos : 0 < (st.client i).handles
      · rw [((h i).live hpos).1]
      · omega
    exact inv_set h ((h i).next hcall hzero fun hd => absurd hidle hd) _
  | work => exact h
  | @destroyDb i rest hidle hcall =>
    exact inv_set h ((h i).next hcall ((h i).handles_eq_zero hcall (by decide))
      fun _ => (h i).mem_of_call hcall) _
  | @noChildren i rest hidle hcall =>
    exact inv_set h ((h i).next hcall ((h i).handles_eq_zero hcall (by decide))
      fun hd => absurd hidle hd) _
  | lock hat | lockFails hat | skip hat | remove hat | removeFails hat | unlock hat
  | removeLock hat | finish hat => exact inv_set h ((h _).at_destroying hat _) _

theorem Step.removed_by {name : String} (hstep : Step st (.removed name) st') :
    ∃ i d, (st.client i).destroying = some d := by
  cases hstep with
  | remove hat => exact ⟨_, _, hat⟩
  | removeLock hat => exact ⟨_, _, hat⟩

theorem Apart.respected (h : Apart programs) (files : List String) (lockFile : Option Nat)
    (process : Nat → Nat) : Respected (start files lockFile process programs) := by
  intro events st htrace
  have hinv : ∀ j, (st.client j).Inv (programs j) := by
    refine Trace.invariant (I := fun _ st => ∀ j, (Clients.client st j).Inv (programs j)) ?_ ?_ htrace
    · intro j
      exact ⟨⟨[], rfl⟩, fun hlive => absurd hlive (lt_irrefl _), fun hd => absurd rfl hd⟩
    · intro _ _ _ _ _ hs hstep
      exact hstep.inv h.1 hs
  refine ⟨⟨?_, ?_⟩, ?_⟩
  · intro i
    by_cases hpos : 0 < (st.client i).handles
    · exact ((hinv i).live hpos).1.le
    · omega
  · intro i j hij
    by_contra hboth
    obtain ⟨hi, hj⟩ := not_or.mp hboth
    obtain ⟨-, hopen, -⟩ := (hinv i).live (Nat.pos_of_ne_zero hi)
    obtain ⟨-, hopen', -⟩ := (hinv j).live (Nat.pos_of_ne_zero hj)
    exact (h.2 i j hij hopen).1 hopen'
  · intro name st' hstep i
    obtain ⟨j, d, hat⟩ := hstep.removed_by
    by_contra hi
    obtain ⟨-, hopen, hidle, -⟩ := (hinv i).live (Nat.pos_of_ne_zero hi)
    have hij : i ≠ j := by
      rintro rfl
      rw [hat] at hidle
      cases hidle
    exact (h.2 i j hij hopen).2 ((hinv j).destroying (by rw [hat]; exact some_ne_none d))

end Apart

/-! ## Calls that do not -/

section NotApart

variable {st : Clients} {i : Nat}

theorem set_set (st : Clients) (i : Nat) (c c' : Client) : (st.set i c).set i c' = st.set i c' := by
  unfold set
  rw [update_idem]

theorem set_client (st : Clients) (i : Nat) (c : Client) : (st.set i c).client i = c :=
  update_self ..

theorem set_other (st : Clients) {i j : Nat} (hij : i ≠ j) (c : Client) :
    (st.set j c).client i = st.client i :=
  update_of_ne hij ..

theorem calls_fail {c : Client} (hidle : c.destroying = none) (hnone : c.handles = 0)
    {done rest : List Call} (hprogram : c.program = done ++ rest) (st : Clients) (i : Nat) :
    ∃ events, Trace (st.set i c) Step events (st.set i { c with program := rest }) := by
  induction done generalizing c with
  | nil =>
    obtain rfl : c.program = rest := hprogram
    exact ⟨[], .start⟩
  | cons call done ih =>
    -- the call itself
    have hcall : ((st.set i c).client i).program = call :: (done ++ rest) := by
      rw [set_client]
      exact hprogram
    have hidle' : ((st.set i c).client i).destroying = none := by
      rw [set_client]
      exact hidle
    have hone : ∃ e, Step (st.set i c) e (st.set i { c with program := done ++ rest }) := by
      cases call with
      | openDb =>
        have hstep : Step (st.set i c) .none ((st.set i c).set i
            { (st.set i c).client i with program := done ++ rest }) := .openFails hidle' hcall
        rw [set_client, set_set] at hstep
        exact ⟨_, hstep⟩
      | closeDb =>
        have hstep := Step.closeDb hidle' hcall
        rw [set_client, set_set, hnone] at hstep
        rw [hnone]
        exact ⟨_, hstep⟩
      | destroyDb =>
        have hstep := Step.noChildren hidle' hcall
        rw [set_client, set_set] at hstep
        exact ⟨_, hstep⟩
    obtain ⟨e, hone⟩ := hone
    obtain ⟨events, hrest⟩ := ih (c := { c with program := done ++ rest }) hidle hnone rfl
    exact ⟨_, (Trace.start.step hone).trans hrest⟩

theorem set_self (st : Clients) (i : Nat) : st.set i (st.client i) = st := by
  unfold set
  rw [update_eq_self]

theorem handles_set (c : Client) (hc : c.handles = (st.client i).handles) (j : Nat) :
    ((st.set i c).client j).handles = (st.client j).handles := by
  unfold set
  dsimp only
  by_cases hij : j = i
  · subst hij
    rw [update_self]
    exact hc
  · rw [update_of_ne hij]

theorem exists_removed {inode : Nat} {names : List String}
    (hat : (st.client i).destroying = some (.removing inode names))
    (hthere : ∀ name ∈ names, destroys name = true → name ∈ st.directory.files)
    (hsome : ∃ name ∈ names, destroys name = true) :
    ∃ events st' name st'', Trace st Step events st' ∧ Step st' (.removed name) st'' ∧
      ∀ j, (st'.client j).handles = (st.client j).handles := by
  induction names generalizing st with
  | nil =>
    obtain ⟨name, hname, -⟩ := hsome
    cases hname
  | cons name names ih =>
    cases hd : destroys name with
    | true =>
      exact ⟨[], st, name, _, .start, .remove hat hd (hthere name mem_cons_self hd), fun _ => rfl⟩
    | false =>
      have hsome' : ∃ n ∈ names, destroys n = true := by
        obtain ⟨n, hn, hdn⟩ := hsome
        obtain rfl | hn := mem_cons.mp hn
        · rw [hd] at hdn
          cases hdn
        · exact ⟨n, hn, hdn⟩
      obtain ⟨events, st', n, st'', htrace, hstep, hhandles⟩ := @ih
        (st.set i { st.client i with destroying := some (.removing inode names) })
        (by rw [set_client]) (fun n hn => hthere n (mem_cons_of_mem _ hn)) hsome'
      refine ⟨_, st', n, st'', (Trace.start.step (.skip hat (Or.inl hd))).trans htrace, hstep, ?_⟩
      exact fun j => (hhandles j).trans (handles_set _ (by rfl) j)

theorem exists_locked {rest : List Call} (htable : st.directory.lockTable = [])
    (hlocks : st.directory.locks = []) (hidle : (st.client i).destroying = none)
    (hcall : (st.client i).program = .destroyDb :: rest) :
    ∃ events inode st', Trace st Step events st' ∧
      (st'.client i).destroying = some (.removing inode st.directory.children) ∧
      st'.directory.files = st.directory.files ∧
      ∀ j, (st'.client j).handles = (st.client j).handles := by
  obtain ⟨inode, d, hlock, hfiles⟩ := Directory.lock_of_free htable hlocks (st.client i).process
  have hlist := Step.destroyDb hidle hcall
  generalize hst₁ : st.set i _ = st₁ at hlist
  have hclient : st₁.client i = { st.client i with
      program := rest, destroying := some (.listed st.directory.children) } := by
    rw [← hst₁, set_client]
  have hstep : Step st₁ .none _ := .lock (i := i) (by rw [hclient])
    (by rw [← hst₁, set_client]; exact hlock)
  refine ⟨_, inode, _, (Trace.start.step hlist).step hstep, by rw [set_client], hfiles, ?_⟩
  intro j
  rw [handles_set]
  · rw [← hst₁]
    show ((st.set i _).client j).handles = _
    exact handles_set _ (by rfl) j
  · rfl

def Unlocked (st : Clients) : Prop := st.directory.lockTable = [] ∧ st.directory.locks = []

theorem exists_conflict {j : Nat} {call : Call} {rest : List Call} (hfree : st.Unlocked)
    (hcurrent : "CURRENT" ∈ st.directory.files) (hlive : (st.client i).handles = 1)
    (hidle : (st.client j).destroying = none) (hcall : (st.client j).program = call :: rest)
    (hne : call ≠ .closeDb) : ¬ Respected st := by
  intro hresp
  cases call with
  | closeDb => exact hne rfl
  | openDb =>
    obtain ⟨⟨hone, htwo⟩, -⟩ := hresp _ _ (Trace.start.step (.openDb hidle hcall hcurrent))
    by_cases hij : i = j
    · subst hij
      have := hone i
      rw [set_client] at this
      dsimp only at this
      omega
    · have := htwo i j hij
      rw [set_client, set_other _ hij] at this
      dsimp only at this
      omega
  | destroyDb =>
    obtain ⟨events, inode, st', htrace, hat, hfiles, hhandles⟩ :=
      exists_locked hfree.1 hfree.2 hidle hcall
    have hthere : ∀ name ∈ st.directory.children, destroys name = true →
        name ∈ st'.directory.files := by
      intro name hname hdestroys
      rw [hfiles]
      obtain hname | hname := mem_append.mp hname
      · exact hname
      · obtain ⟨_, _, rfl⟩ := Option.mem_map.mp (mem_toList.mp hname)
        exact absurd hdestroys (by decide)
    obtain ⟨more, st'', name, last, htrace', hstep, hhandles'⟩ :=
      exists_removed hat hthere ⟨"CURRENT", mem_append_left _ hcurrent, by decide⟩
    have := (hresp _ _ (htrace.trans htrace')).2 name last hstep i
    rw [hhandles', hhandles, hlive] at this
    cases this

variable {files : List String} {lockFile : Option Nat} {process : Nat → Nat}
  {programs : Nat → List Call}

theorem exists_opened {done rest : List Call} (hprogram : programs i = done ++ .openDb :: rest) :
    ∃ events st, Trace (start files lockFile process programs) Step events st ∧ st.Unlocked ∧
      "CURRENT" ∈ st.directory.files ∧ st.client i = ⟨process i, rest, 1, none⟩ ∧
      ∀ j, j ≠ i → st.client j = ⟨process j, programs j, 0, none⟩ := by
  obtain ⟨events, htrace⟩ := calls_fail (c := ⟨process i, programs i, 0, none⟩) rfl rfl hprogram
    (start files lockFile process programs) i
  have hself : (start files lockFile process programs).set i ⟨process i, programs i, 0, none⟩ =
      start files lockFile process programs := set_self _ i
  rw [hself] at htrace
  generalize hst : (start files lockFile process programs).set i _ = st at htrace
  have hstep : Step st .none
      ({ st with directory := { st.directory with files := ["CURRENT"] } }.set i
        { st.client i with program := rest, handles := (st.client i).handles + 1 }) := by
    refine .openDb ?_ ?_ mem_cons_self
    · rw [← hst, set_client]
    · rw [← hst, set_client]
  subst hst
  refine ⟨_, _, htrace.step hstep, ⟨rfl, rfl⟩, mem_cons_self, ?_, ?_⟩
  · rw [set_client, set_client]
  · intro j hj
    rw [set_other _ hj]
    exact set_other _ hj _

theorem Respected.of_trace {events : List Removal} {st' : Clients} (h : Respected st)
    (htrace : Trace st Step events st') : Respected st' :=
  fun more st'' htrace' => h (events ++ more) st'' (htrace.trans htrace')

end NotApart

/-- **Live databases.** Whatever files the directory has at first, and in whatever processes the
    clients are: in every interleaving of their calls at most one handle is live, and `DestroyDB`
    removes no file while one is, exactly when the calls keep apart by themselves. -/
theorem respected_iff (files : List String) (lockFile : Option Nat) (process : Nat → Nat)
    (programs : Nat → List Call) :
    Respected (start files lockFile process programs) ↔ Apart programs := by
  refine ⟨fun h => ⟨?_, ?_⟩, fun h => h.respected files lockFile process⟩
  · intro i
    rw [isChain_iff_forall_rel_of_append_cons_cons]
    intro a b done rest hprogram ha
    subst ha
    by_contra hb
    obtain ⟨events, st, htrace, hfree, hcurrent, hclient, -⟩ := exists_opened hprogram
    have hlive : (st.client i).handles = 1 := by rw [hclient]
    exact exists_conflict hfree hcurrent hlive (by rw [hclient]) (by rw [hclient]) hb
      (h.of_trace htrace)
  · intro i j hij hopen
    obtain ⟨done, rest, hprogram⟩ := append_of_mem hopen
    obtain ⟨events, st, htrace, hfree, hcurrent, hclient, hothers⟩ := exists_opened hprogram
    have hj := hothers j hij.symm
    have hno : ∀ call, call ≠ .closeDb → call ∉ programs j := by
      intro call hne hmem
      obtain ⟨done', rest', hprogram'⟩ := append_of_mem hmem
      obtain ⟨more, hfail⟩ := calls_fail (c := ⟨process j, programs j, 0, none⟩) rfl rfl hprogram' st j
      rw [← hj, set_self, hj] at hfail
      have hfree' : (st.set j ⟨process j, call :: rest', 0, none⟩).Unlocked := hfree
      have hlive : ((st.set j ⟨process j, call :: rest', 0, none⟩).client i).handles = 1 := by
        rw [set_other _ hij, hclient]
      have hcall : (st.set j ⟨process j, call :: rest', 0, none⟩).client j =
          ⟨process j, call :: rest', 0, none⟩ := set_client ..
      exact exists_conflict hfree' hcurrent hlive (by rw [hcall]) (by rw [hcall]) hne
        ((h.of_trace htrace).of_trace hfail)
    exact ⟨hno _ (by decide), hno _ (by decide)⟩

/-! Two clients of one process: one opens the database and the other one destroys it. -/

def sampleCalls : Nat → List Call
  | 0 => [.openDb, .closeDb]
  | 1 => [.destroyDb]
  | _ => []

/-- CURRENT is removed under a live handle. -/
theorem live_database_destroyed : ∃ (events : List Removal) (st st' : Clients),
    Trace (start [] none (fun _ => 0) sampleCalls) Step events st ∧
    Step st (.removed "CURRENT") st' ∧ (st.client 0).handles = 1 ∧ st'.directory.files = [] := by
  have s0 : Trace (start [] none (fun _ => 0) sampleCalls) Step [] _ := .start
  have s1 := s0.step (@Step.openDb _ 0 _ ["CURRENT"] rfl rfl mem_cons_self)
  have s2 := s1.step (.destroyDb (i := 1) rfl rfl)
  have s3 := s2.step (.lock (i := 1) rfl rfl)
  exact ⟨_, _, _, s3, .remove (i := 1) rfl (by decide) mem_cons_self, rfl, rfl⟩

end Clients

end LevelDB
