/-
  The files of a database as a crash sees them.

  Logs and manifests are lists of records. Of each such file a crash keeps a part that holds
  at least the records that are durable: those synced, and for a log those appended before
  the last acknowledged write (`LogFile.Cut`). A table is readable once it has been finished
  and synced; CURRENT is switched by one rename.
-/
import Mathlib.Data.List.AList
import LevelDB.Db.Batch
import LevelDB.Version.Builder

namespace LevelDB

open Function

/-! ## Files of records -/

/-- A log or a manifest: its records, of which the first `durable` survive a crash. -/
structure LogFile (α : Type) where
  records : List α
  durable : Nat
  durable_le : durable ≤ records.length

namespace LogFile

variable {α : Type}

def empty : LogFile α := ⟨[], 0, le_refl _⟩

/-- `AddRecord`. -/
def append (f : LogFile α) (r : α) : LogFile α :=
  ⟨f.records ++ [r], f.durable, f.durable_le.trans (by simp)⟩

def sync (f : LogFile α) : LogFile α := ⟨f.records, f.records.length, le_refl _⟩

def Synced (f : LogFile α) : Prop := f.durable = f.records.length

def Cut (f f' : LogFile α) : Prop :=
  f'.durable = f.durable ∧ ∃ n, f.durable ≤ n ∧ f'.records = f.records.take n

@[simp] theorem append_records (f : LogFile α) (r : α) : (f.append r).records = f.records ++ [r] :=
  rfl

@[simp] theorem sync_records (f : LogFile α) : f.sync.records = f.records := rfl

theorem sync_synced (f : LogFile α) : f.sync.Synced := rfl

theorem Cut.refl (f : LogFile α) : f.Cut f :=
  ⟨rfl, f.records.length, f.durable_le, by simp⟩

theorem Cut.trans {f g h : LogFile α} (hfg : f.Cut g) (hgh : g.Cut h) : f.Cut h := by
  obtain ⟨hd, n, hn, hr⟩ := hfg
  obtain ⟨hd', m, hm, hr'⟩ := hgh
  refine ⟨hd'.trans hd, min m n, ?_, ?_⟩
  · rw [hd] at hm
    omega
  · rw [hr', hr, List.take_take]

theorem Cut.records_eq {f g : LogFile α} (h : f.Cut g) (hs : f.Synced) : g.records = f.records := by
  obtain ⟨-, n, hn, hr⟩ := h
  rw [hr, List.take_of_length_le (hs ▸ hn)]

end LogFile

/-! ## The directory -/

variable {K V : Type} [LinearOrder K]

abbrev LogDir (K V : Type) := AList fun _ : Nat => LogFile (WriteBatch K V)

/-- The files of the database: the manifest that CURRENT names, manifests, logs, and tables
    that can be read. -/
structure Disk (K V : Type) [LinearOrder K] where
  current : Option Nat
  manifests : Nat → Option (LogFile (VersionEdit K))
  logs : LogDir K V
  tables : Nat → Option (Table K V)

def Disk.empty : Disk K V := ⟨none, fun _ => none, ∅, fun _ => none⟩

def LogDir.Cut (logs logs' : LogDir K V) : Prop :=
  ∀ n, Option.Rel LogFile.Cut (logs.lookup n) (logs'.lookup n)

namespace Disk

/-- What the table cache reads; a number without a readable table gives an empty one. -/
def store (d : Disk K V) : TableStore K V :=
  fun n => (d.tables n).getD (Table.ofEntries [] Table.strict_nil Table.wellFormed_nil)

def manifestRecords (d : Disk K V) : Option (Nat × List (VersionEdit K)) :=
  d.current.bind fun m => (d.manifests m).map fun f => (m, f.records)

/-- `NewWritableFile` for a log. -/
def createLog (d : Disk K V) (n : Nat) : Disk K V := { d with logs := d.logs.insert n .empty }

/-- `log_->AddRecord`. -/
def appendLog (d : Disk K V) (n : Nat) (r : WriteBatch K V) : Disk K V :=
  { d with logs := d.logs.insert n (((d.logs.lookup n).getD .empty).append r) }

def syncLog (d : Disk K V) (n : Nat) : Disk K V :=
  { d with logs := d.logs.insert n ((d.logs.lookup n).getD .empty).sync }

/-- `NewWritableFile` or `RemoveFile` for a table: whatever the file held is gone. -/
def clearTable (d : Disk K V) (n : Nat) : Disk K V :=
  { d with tables := Function.update d.tables n none }

def finishTable (d : Disk K V) (n : Nat) (t : Table K V) : Disk K V :=
  { d with tables := Function.update d.tables n (some t) }

def setManifest (d : Disk K V) (n : Nat) (f : LogFile (VersionEdit K)) : Disk K V :=
  { d with manifests := Function.update d.manifests n (some f) }

@[simp] theorem manifests_setManifest (d : Disk K V) (n : Nat) (f : LogFile (VersionEdit K)) :
    (d.setManifest n f).manifests n = some f := by
  unfold setManifest
  exact update_self _ _ _

/-- `SetCurrentFile`. -/
def setCurrent (d : Disk K V) (n : Nat) : Disk K V := { d with current := some n }

@[simp] theorem manifests_setCurrent (d : Disk K V) (n : Nat) :
    (d.setCurrent n).manifests = d.manifests := rfl

structure Cut (d d' : Disk K V) : Prop where
  current : d'.current = d.current
  manifests : ∀ n, Option.Rel LogFile.Cut (d.manifests n) (d'.manifests n)
  logs : d.logs.Cut d'.logs
  tables : d'.tables = d.tables

end Disk

theorem optionRel_cut_refl {α : Type} (o : Option (LogFile α)) : Option.Rel LogFile.Cut o o := by
  cases o with
  | none => exact .none
  | some f => exact .some (.refl f)

theorem optionRel_cut_trans {α : Type} {a b c : Option (LogFile α)}
    (hab : Option.Rel LogFile.Cut a b) (hbc : Option.Rel LogFile.Cut b c) :
    Option.Rel LogFile.Cut a c := by
  cases hab with
  | none => exact hbc
  | some h =>
    cases hbc with
    | some h' => exact .some (h.trans h')

theorem Disk.Cut.refl (d : Disk K V) : d.Cut d :=
  ⟨rfl, fun _ => optionRel_cut_refl _, fun _ => optionRel_cut_refl _, rfl⟩

/-! ## Disks that recovery cannot tell apart -/

/-- The same CURRENT, the same manifest under it, the same logs, and the same tables below
    number `n`. -/
structure Disk.Agrees (n : Nat) (d x : Disk K V) : Prop where
  current : x.current = d.current
  manifest : ∀ m, d.current = some m → x.manifests m = d.manifests m
  logs : x.logs = d.logs
  tables : ∀ k < n, x.tables k = d.tables k

namespace Disk.Agrees

variable {n k : Nat} {d x y : Disk K V}

theorem refl (n : Nat) (d : Disk K V) : Agrees n d d :=
  ⟨rfl, fun _ _ => rfl, rfl, fun _ _ => rfl⟩

theorem trans (h : Agrees n d x) (h' : Agrees n x y) : Agrees n d y :=
  ⟨h'.current.trans h.current,
    fun m hm => (h'.manifest m (h.current.trans hm)).trans (h.manifest m hm),
    h'.logs.trans h.logs, fun k hk => (h'.tables k hk).trans (h.tables k hk)⟩

theorem clearTable (d : Disk K V) (hk : n ≤ k) : Agrees n d (d.clearTable k) :=
  ⟨rfl, fun _ _ => rfl, rfl, fun _ hj => update_of_ne (hj.trans_le hk).ne _ _⟩

theorem finishTable (d : Disk K V) (t : Table K V) (hk : n ≤ k) : Agrees n d (d.finishTable k t) :=
  ⟨rfl, fun _ _ => rfl, rfl, fun _ hj => update_of_ne (hj.trans_le hk).ne _ _⟩

theorem store_eq (h : Agrees n d x) (hk : k < n) : x.store k = d.store k := by
  unfold Disk.store
  rw [h.tables k hk]

end Disk.Agrees

theorem Disk.store_finishTable (d : Disk K V) (n : Nat) (t : Table K V) :
    (d.finishTable n t).store = Function.update d.store n t := by
  funext k
  unfold Disk.store Disk.finishTable
  dsimp only
  by_cases hk : k = n
  · rw [hk, update_self, update_self]
    rfl
  · rw [update_of_ne hk, update_of_ne hk]

end LevelDB
