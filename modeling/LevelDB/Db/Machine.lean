/-
  The running database as a state machine (`db/db_impl.cc`): groups of writes, memtable
  switches, flushes, compactions, crashes, and reopening.

  A crash may hit anywhere, so operations come with the disks they pass through. A group of writes
  is two steps: its record is appended to the log, and later it is in the memtable and
  acknowledged. There are no I/O errors, except that a compaction may fail or be abandoned.

  `Spec` is the specification of durability: acknowledged groups stay, in order, and the group in
  flight at a crash may be there after reopening or not.
-/
import LevelDB.Db.Sound
import LevelDB.Lib.Trace

namespace LevelDB

open Transition

variable {K V : Type} [LinearOrder K]

/-! ## Operations of an open database -/

namespace Db

/-- `Write`, up to the log: the group gets the next sequence numbers and is appended. -/
def beginWrite (s : Db K V) (ops : List (Op K V)) : Db K V :=
  let b : WriteBatch K V := ⟨s.versions.lastSequence + 1, ops⟩
  { s with disk := s.disk.appendLog s.logfileNumber b, pending := some b }

/-- `Write`, from the log on. What has been appended before the acknowledgement survives. -/
def finishWrite [Inhabited V] (s : Db K V) (b : WriteBatch K V) : Db K V :=
  { s with
    disk := s.disk.syncLog s.logfileNumber
    versions := { s.versions with lastSequence := s.versions.lastSequence + b.ops.length }
    mem := s.mem.addAll b.entries
    pending := none }

/-- `MakeRoomForWrite`, where it switches to a new log and a new memtable. -/
def switchMemTable (s : Db K V) : Db K V :=
  let number := s.versions.nextFileNumber
  { s with
    disk := s.disk.createLog number
    versions := { s.versions with nextFileNumber := number + 1 }
    mem := []
    imm := some s.mem
    logfileNumber := number }

variable [Inhabited K]

/-- `BackgroundCompaction`, where it writes out the immutable memtable. -/
def flush (cfg : Config K V) (s : Db K V) (imm : MemTable K V) : List (Disk K V) × Db K V :=
  let number := s.versions.nextFileNumber
  let vs := { s.versions with nextFileNumber := number + 1 }
  let built := buildTableOn cfg s.disk number imm
  let f := buildTable cfg number imm
  if 0 < f.fileSize then
    let done := vs.logAndApply cfg built.2 (flushEdit cfg vs.current f s.logfileNumber)
    (built.1 ++ done.passed, { s with disk := done.disk, versions := done.versions, imm := none })
  else (built.1, { s with disk := built.2, versions := vs, imm := none })

/-- `BackgroundCompaction`, for a trivial move. -/
def moveFile (cfg : Config K V) (s : Db K V) (c : Compaction K) : List (Disk K V) × Db K V :=
  let done := s.versions.logAndApply cfg s.disk c.moveEdit
  (done.passed, { s with disk := done.disk, versions := done.versions })

/-- `DoCompactionWork`, up to where it releases the mutex. -/
def startCompaction (s : Db K V) (c : Compaction K) (smallestSnapshot : Nat)
    (env : CompactionEnv) : Db K V :=
  let number := s.versions.nextFileNumber
  { s with
    disk := s.disk.clearTable number
    versions := { s.versions with nextFileNumber := number + 1 }
    job := some ⟨c, smallestSnapshot, number, env⟩ }

/-- `BackgroundCompaction` after `DoCompactionWork` has returned OK, with the table it has
    written, if any. -/
def installCompaction (cfg : Config K V) (s : Db K V) (c : Compaction K)
    (output : Option (FileMetaData K × List (Entry K V))) : List (Disk K V) × Db K V :=
  let disk := output.elim s.disk fun p => s.disk.finishTable p.1.number (cfg.writeTable p.2)
  let done := s.versions.logAndApply cfg disk (compactionEdit c (output.map Prod.fst))
  (done.passed, { s with disk := done.disk, versions := done.versions, job := none })

end Db

/-! ## Steps -/

/-- What `DoCompactionWork` hands to the edit: no file, or a file with its entries. -/
abbrev Output (K V : Type) := Option (FileMetaData K × List (Entry K V))

/-- The operations on files that run inside an open database, with the disks they pass
    through. `allows` restricts the outputs of compactions. -/
inductive Work [Inhabited K] [Inhabited V] (cfg : Config K V) (allows : Output K V → Prop) :
    Db K V → List (Disk K V) → Db K V → Prop where
  | switchMemTable {s : Db K V} (hpending : s.pending = none) (himm : s.imm = none) :
      Work cfg allows s [] s.switchMemTable
  | flush {s : Db K V} {imm : MemTable K V} (himm : s.imm = some imm) (hjob : s.job = none) :
      Work cfg allows s (s.flush cfg imm).1 (s.flush cfg imm).2
  | moveFile {s : Db K V} {c : Compaction K} (hjob : s.job = none)
      (hc : Picked s.versions.current c) (htrivial : c.isTrivialMove cfg.maxFileSize = true) :
      Work cfg allows s (s.moveFile cfg c).1 (s.moveFile cfg c).2
  | compactNothing {s : Db K V} {c : Compaction K} {env : CompactionEnv} (hjob : s.job = none)
      (hc : Picked s.versions.current c)
      (hinput : (makeInputIterator s.disk.store env.faults c).entries = []) (hallows : allows none) :
      Work cfg allows s (s.installCompaction cfg c none).1 (s.installCompaction cfg c none).2
  | startCompaction {s : Db K V} {c : Compaction K} {snap : Nat} {env : CompactionEnv}
      (hjob : s.job = none) (hc : Picked s.versions.current c)
      (hinput : (makeInputIterator s.disk.store env.faults c).entries ≠ []) :
      Work cfg allows s [] (s.startCompaction c snap env)
  | finishCompaction {s : Db K V} {j : Job K} {output : Output K V} (hjob : s.job = some j)
      (hwork : doCompactionWork s.versions.current s.disk.store j.compaction j.smallestSnapshot
        j.number j.env = .ok output) (hallows : allows output) :
      Work cfg allows s (s.installCompaction cfg j.compaction output).1
        (s.installCompaction cfg j.compaction output).2
  | abandonCompaction {s : Db K V} {j : Job K} (hjob : s.job = some j) :
      Work cfg allows s [] { s with job := none }

inductive Event (K V : Type) where
  | write (ops : List (Op K V))
  | acknowledge
  | work
  | crash
  | reopen
  deriving DecidableEq, Repr

inductive State (K V : Type) [LinearOrder K] where
  | opened (s : Db K V)
  | closed (d : Disk K V)

/-- One step of the database. A crash inside an operation leaves a cut of one of the disks it
    passes through; closing the database is a crash that cuts nothing. -/
inductive Step [Inhabited K] [Inhabited V] (cfg : Config K V) (allows : Output K V → Prop) :
    State K V → Event K V → State K V → Prop where
  | write {s : Db K V} {ops : List (Op K V)} (hpending : s.pending = none)
      (hfits : s.versions.lastSequence + ops.length ≤ kMaxSequenceNumber) :
      Step cfg allows (.opened s) (.write ops) (.opened (s.beginWrite ops))
  | acknowledge {s : Db K V} {b : WriteBatch K V} (hpending : s.pending = some b) :
      Step cfg allows (.opened s) .acknowledge (.opened (s.finishWrite b))
  | work {s s' : Db K V} {passed : List (Disk K V)} (hwork : Work cfg allows s passed s') :
      Step cfg allows (.opened s) .work (.opened s')
  | crash {s : Db K V} {d : Disk K V} (hcut : s.disk.Cut d) :
      Step cfg allows (.opened s) .crash (.closed d)
  | crashInWork {s s' : Db K V} {passed : List (Disk K V)} {x d : Disk K V}
      (hwork : Work cfg allows s passed s') (hx : x ∈ passed) (hcut : x.Cut d) :
      Step cfg allows (.opened s) .crash (.closed d)
  | reopen {d : Disk K V} {s : Db K V} (hopen : (openDb cfg d).2 = .ok s) :
      Step cfg allows (.closed d) .reopen (.opened s)
  | crashInOpen {d x d' : Disk K V} (hx : x ∈ (openDb cfg d).1) (hcut : x.Cut d') :
      Step cfg allows (.closed d) .crash (.closed d')

def Run [Inhabited K] [Inhabited V] (cfg : Config K V) (allows : Output K V → Prop) :
    List (Event K V) → State K V → Prop :=
  Trace (.closed .empty) (Step cfg allows)

/-! ## The specification -/

/-- The operations of the acknowledged groups, and the group in flight. -/
structure Spec (K V : Type) where
  hist : List (Op K V)
  inFlight : List (Op K V)

inductive Spec.Step : Spec K V → Event K V → Spec K V → Prop where
  | write {hist ops : List (Op K V)} : Step ⟨hist, []⟩ (.write ops) ⟨hist, ops⟩
  | acknowledge {hist ops : List (Op K V)} : Step ⟨hist, ops⟩ .acknowledge ⟨hist ++ ops, []⟩
  | work {s : Spec K V} : Step s .work s
  | crash {s : Spec K V} : Step s .crash s
  | lose {hist ops : List (Op K V)} : Step ⟨hist, ops⟩ .reopen ⟨hist, []⟩
  | keep {hist ops : List (Op K V)} : Step ⟨hist, ops⟩ .reopen ⟨hist ++ ops, []⟩

def Spec.Run : List (Event K V) → Spec K V → Prop := Trace ⟨[], []⟩ Spec.Step

end LevelDB
