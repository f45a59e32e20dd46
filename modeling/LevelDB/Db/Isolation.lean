/-
  Reads beside concurrent writes and flushes (`DBImpl::Get`, `NewIterator` and `GetSnapshot`,
  `db/db_impl.cc`).

  `Shared` is what the mutex protects: the write queue with its memtables, the current version,
  and the tables. A reader captures the memtables and the version under the mutex, and reads them
  later without it, while the leader of a group inserts into the same memtable.
-/
import LevelDB.Db.WriteQueue
import LevelDB.Iterator.Growing

namespace LevelDB

open List SortedList Transition

variable {K V : Type}

/-! ## The shared state -/

namespace WriteQueue

def flushed (st : WriteQueue K V) : List (Generation K V) :=
  if st.imm then st.closed.dropLast else st.closed

def tableBound (st : WriteQueue K V) : Nat := st.flushing.getD st.nextFileNumber

end WriteQueue

def Phase.batch : Phase K V → List (Op K V)
  | appending _ b => b.ops
  | syncing _ b => b.ops
  | inserting _ b _ _ => b.ops
  | _ => []

def WriteQueue.assigned (st : WriteQueue K V) : Nat := st.lastSequence + st.phase.batch.length

variable [LinearOrder K]

/-- What the mutex of `DBImpl` protects. -/
structure Shared (K V : Type) [LinearOrder K] where
  write : WriteQueue K V
  version : Version K
  store : TableStore K V

namespace Shared

/-- After `DB::Open`, with `n` operations in the version `v`. -/
def opened (n logNumber : Nat) (v : Version K) (store : TableStore K V) : Shared K V :=
  ⟨.init n logNumber (v.files 0).length, v, store⟩

variable [Inhabited V] [Inhabited K]

/-- `BackgroundCompaction` after `BuildTable` has written the memtable of `g` to a table. -/
def installFlush (cfg : Config K V) (st : Shared K V) (number : Nat) (g : Generation K V) :
    Shared K V :=
  let f := buildTable cfg number g.mem
  let version :=
    if 0 < f.fileSize then
      st.version.applyEdit (flushEdit cfg st.version f st.write.log.number)
    else st.version
  { write := { st.write with imm := false, flushing := none
                             levelZero := (version.files 0).length }
    version := version
    store :=
      if 0 < f.fileSize then Function.update st.store number (cfg.writeTable g.mem) else st.store }

/-- The steps of writers and of flushes. Sequence numbers have to fit into their 56 bits. -/
inductive Step (cfg : Config K V) (env : WriteEnv K V) :
    Shared K V → WriteQueue.Event K V → Shared K V → Prop where
  | enqueue {st : Shared K V} (w : Writer K V) :
      Step cfg env st (.enqueue w)
        { st with write := { st.write with queue := st.write.queue ++ [w] } }
  | writing {st : Shared K V} {write : WriteQueue K V}
      (h : WriteQueue.Writing env st.write write) (hfits : write.assigned ≤ kMaxSequenceNumber) :
      Step cfg env st .work { st with write := write }
  | startFlush {st : Shared K V} (himm : st.write.imm = true) (hidle : st.write.flushing = none) :
      Step cfg env st .work
        { st with write := { st.write with flushing := some st.write.nextFileNumber
                                           nextFileNumber := st.write.nextFileNumber + 1 } }
  | installFlush {st : Shared K V} {number : Nat} {g : Generation K V}
      (hflushing : st.write.flushing = some number) (hlast : st.write.closed.getLast? = some g) :
      Step cfg env st .work (st.installFlush cfg number g)

end Shared

/-! ## Readers -/

/-- What `Get` and `NewIterator` capture under the mutex: the memtable and the immutable
    memtable, by their generations, and the version. -/
structure Capture (K : Type) where
  mem : Nat
  imm : Option Nat
  version : Version K

namespace Shared

/-- Capturing `mem_`, `imm_` and `current()`. -/
def capture (st : Shared K V) : Capture K where
  mem := st.write.closed.length
  imm := if st.write.imm then some (st.write.closed.length - 1) else none
  version := st.version

def memtable (st : Shared K V) (i : Nat) : MemTable K V :=
  st.write.generations[i]?.elim [] Generation.mem

end Shared

namespace Capture

/-- `Get` at sequence number `s`, on what was captured, as it is in the state `st`. -/
def get (c : Capture K) (st : Shared K V) (k : K) (s : Nat) : Except Status (Option V) :=
  dbGet (st.memtable c.mem) (c.imm.map st.memtable) c.version st.store.cacheGet k s

def entries (c : Capture K) (st : Shared K V) : Set (Entry K V) :=
  dbEntries (st.memtable c.mem) (c.imm.map st.memtable) c.version st.store

end Capture

/-! ## Only what is captured matters -/

variable [Inhabited V]

namespace WriteQueue

theorem Writing.flush_eq {env : WriteEnv K V} {st st' : WriteQueue K V}
    (h : Writing env st st') : st'.flushing = st.flushing ∧
      st.nextFileNumber ≤ st'.nextFileNumber ∧ st'.flushed = st.flushed ∧
      st'.levelZero = st.levelZero := by
  cases h with
  | @switch force allowDelay hphase hroom =>
    have hcases := makeRoomForWrite_cases env st force allowDelay
    rw [hroom] at hcases
    refine ⟨rfl, Nat.le_succ _, ?_, rfl⟩
    unfold flushed switchMemTable
    rw [hcases.2]
    simp
  | _ => exact ⟨rfl, le_refl _, rfl, rfl⟩

end WriteQueue

namespace Shared

/-- Generations grow, and tables with numbers in use stay as they are. -/
structure Keeps (st st' : Shared K V) : Prop where
  grows : st.write.Grows st'.write
  bound : st.write.tableBound ≤ st'.write.tableBound
  store : ∀ n < st.write.tableBound, st'.store n = st.store n

omit [Inhabited V] in
theorem Keeps.refl (st : Shared K V) : Keeps st st := ⟨.refl _, le_refl _, fun _ _ => rfl⟩

omit [Inhabited V] in
theorem Keeps.trans {st st' st'' : Shared K V} (h : Keeps st st') (h' : Keeps st' st'') :
    Keeps st st'' :=
  ⟨h.grows.trans h'.grows, h.bound.trans h'.bound,
    fun n hn => (h'.store n (hn.trans_le h.bound)).trans (h.store n hn)⟩

/-- The invariant: over the operations `H`, of which the tables had the entries `S` when the
    database was opened, after the calls `calls`. -/
structure Live (S : Set (Entry K V)) (H : List (Op K V)) (calls : List (Writer K V))
    (st : Shared K V) : Prop where
  base : S ⊆ history H
  write : st.write.Inv H.length calls
  holds : Holds False st.version st.store (H ++ st.write.flushed.flatMap Generation.ops)
  entries : ∀ e, e ∈ st.version.entries st.store ↔
    e ∈ S ∨ e ∈ entriesFrom (H.length + 1) (st.write.flushed.flatMap Generation.ops)
  numbers : ∀ l, ∀ f ∈ st.version.files l, f.number < st.write.tableBound
  flushing_lt : ∀ number, st.write.flushing = some number → number < st.write.nextFileNumber
  levelZero : st.write.levelZero = (st.version.files 0).length
  fits : st.write.assigned ≤ kMaxSequenceNumber

variable {S : Set (Entry K V)} {H : List (Op K V)} {calls : List (Writer K V)}
  {st st' : Shared K V} {cfg : Config K V} {env : WriteEnv K V}

namespace Live

theorem opened {v : Version K} {store : TableStore K V} (h : Holds False v store H)
    {logNumber : Nat} (hnum : ∀ l, ∀ f ∈ v.files l, f.number < logNumber)
    (hfits : H.length ≤ kMaxSequenceNumber) :
    Live (v.entries store) H [] (opened H.length logNumber v store) where
  base := h.sub
  write := .init _ _ _
  holds := by
    rw [show (Shared.opened H.length logNumber v store).write.flushed = [] from rfl,
      flatMap_nil, append_nil]
    exact h
  entries := fun e => ⟨Or.inl, fun he => he.resolve_right not_mem_nil⟩
  numbers := fun l f hf => (hnum l f hf).trans (Nat.lt_succ_self _)
  flushing_lt := fun number hf => by cases hf
  levelZero := rfl
  fits := hfits

theorem enqueue (h : Live S H calls st) (w : Writer K V) :
    Live S H (calls ++ [w]) { st with write := { st.write with queue := st.write.queue ++ [w] } } :=
  { h with write := h.write.enqueue w }

theorem writing (h : Live S H calls st) {write : WriteQueue K V}
    (hstep : WriteQueue.Writing env st.write write) (hfits : write.assigned ≤ kMaxSequenceNumber)
    (hkeeps : Keeps st { st with write := write }) : Live S H calls { st with write := write } := by
  obtain ⟨hflushing, hnext, hflushed, hzero⟩ := hstep.flush_eq
  refine { h with write := hstep.inv h.write, holds := ?_, entries := ?_, numbers := ?_,
                  flushing_lt := ?_, levelZero := hzero.trans h.levelZero, fits := hfits }
  · rw [hflushed]
    exact h.holds
  · rw [hflushed]
    exact h.entries
  · exact fun l f hf => (h.numbers l f hf).trans_le hkeeps.bound
  · intro number hf
    rw [hflushing] at hf
    exact (h.flushing_lt number hf).trans_le hnext

theorem flushed_length_le (h : Live S H calls st) :
    (H ++ st.write.flushed.flatMap Generation.ops).length ≤ kMaxSequenceNumber := by
  obtain ⟨ops, hops, -⟩ := h.write.current
  have hsub : st.write.flushed.flatMap Generation.ops <+: st.write.closed.flatMap Generation.ops := by
    unfold WriteQueue.flushed
    split_ifs
    · exact List.IsPrefix.flatMap ( dropLast_prefix _) _
    · exact prefix_rfl
  have hle := hsub.length_le
  have hlast := h.write.last
  have hfits := h.fits
  unfold WriteQueue.assigned at hfits
  rw [← hops, length_append] at hlast
  rw [length_append]
  omega

end Live

variable [Inhabited K]

theorem Step.keeps {e : WriteQueue.Event K V} (hstep : Step cfg env st e st')
    (h : Live S H calls st) : Keeps st st' := by
  cases hstep with
  | enqueue w => exact ⟨.of_log rfl (.refl _) prefix_rfl, le_refl _, fun _ _ => rfl⟩
  | writing hstep hfits =>
    obtain ⟨hflushing, hnext, -⟩ := hstep.flush_eq
    refine ⟨hstep.grows, ?_, fun _ _ => rfl⟩
    unfold WriteQueue.tableBound
    dsimp only
    rw [hflushing]
    cases st.write.flushing with
    | none => exact hnext
    | some number => exact le_refl _
  | startFlush himm hidle =>
    refine ⟨.of_log rfl (.refl _) prefix_rfl, ?_, fun _ _ => rfl⟩
    unfold WriteQueue.tableBound
    dsimp only
    rw [hidle]
    exact le_refl _
  | @installFlush number g hflushing hlast =>
    have hbound : st.write.tableBound = number := by
      unfold WriteQueue.tableBound
      rw [hflushing]
      rfl
    refine ⟨.of_log rfl (.refl _) prefix_rfl, ?_, ?_⟩
    · rw [hbound]
      exact (h.flushing_lt _ hflushing).le
    · intro n hn
      rw [hbound] at hn
      unfold Shared.installFlush
      dsimp only
      split_ifs
      · exact Function.update_of_ne hn.ne _ _
      · rfl

theorem Live.installFlush (h : Live S H calls st) {number : Nat} {g : Generation K V}
    (hflushing : st.write.flushing = some number) (hlast : st.write.closed.getLast? = some g) :
    Live S H calls (st.installFlush cfg number g) := by
  have himm : st.write.imm = true := h.write.flushing (by rw [hflushing]; rfl)
  obtain ⟨older, hclosed⟩ := getLast?_eq_some_iff.mp hlast
  have hflushed : st.write.flushed = older := by
    unfold WriteQueue.flushed
    rw [himm, hclosed]
    simp
  have hbound : st.write.tableBound = number := by
    unfold WriteQueue.tableBound
    rw [hflushing]
    rfl
  have hmem : g.mem = memOf ((H ++ older.flatMap Generation.ops).length + 1) g.ops := by
    have hfiled := h.write.filed
    rw [hclosed, filed_append] at hfiled
    rw [hfiled.2.2.1, length_append, Nat.add_right_comm]
  have hnum := h.numbers
  have hnumber := h.flushing_lt number hflushing
  have hlen := h.flushed_length_le
  have hholds := h.holds
  have hentries := h.entries
  rw [hbound] at hnum
  rw [hflushed] at hlen hholds hentries
  have hops : (st.installFlush cfg number g).write.flushed.flatMap Generation.ops =
      older.flatMap Generation.ops ++ g.ops := by
    change st.write.closed.flatMap Generation.ops = _
    rw [hclosed, flatMap_append, flatMap_singleton]
  by_cases hne : g.ops = []
  · -- an empty memtable leaves no table
    have hsize : ¬ 0 < (buildTable cfg number g.mem).fileSize := by
      rw [hmem, hne]
      exact lt_irrefl 0
    have hversion : (st.installFlush cfg number g).version = st.version := if_neg hsize
    have hstore : (st.installFlush cfg number g).store = st.store := if_neg hsize
    rw [hne, append_nil] at hops
    refine ⟨h.base, h.write.installFlush _, ?_, ?_, ?_, fun n hn => (by cases hn), rfl, h.fits⟩
    · rw [hops, hversion, hstore]
      exact hholds
    · rw [hops, hversion, hstore]
      exact hentries
    · rw [hversion]
      exact fun l f hf => (hnum l f hf).trans hnumber
  · have hsize : 0 < (buildTable cfg number g.mem).fileSize := by
      rw [hmem]
      exact buildTable_fileSize_pos hne
    have hversion : (st.installFlush cfg number g).version = st.version.applyEdit
        (flushEdit cfg st.version (buildTable cfg number g.mem) st.write.log.number) :=
      if_pos hsize
    have hstore : (st.installFlush cfg number g).store =
        Function.update st.store number (cfg.writeTable g.mem) := if_pos hsize
    refine ⟨h.base, h.write.installFlush _, ?_, ?_, ?_, fun n hn => (by cases hn), rfl, h.fits⟩
    · rw [hops, hversion, hstore, ← append_assoc, hmem]
      exact hholds.flush hlen cfg _ hnum hne
    · intro e
      have hadd : e ∈ (st.version.applyEdit (flushEdit cfg st.version
          (buildTable cfg number g.mem) st.write.log.number)).entries
            (Function.update st.store number (cfg.writeTable g.mem)) ↔
          e ∈ st.version.entries st.store ∨ e ∈ (cfg.writeTable g.mem).entries :=
        Version.Layered.mem_entries_add (mem_flushEdit cfg st.write.log.number hnum) hnum
      rw [hops, hversion, hstore, entriesFrom_append, mem_append, ← or_assoc, ← hentries e]
      refine hadd.trans (or_congr Iff.rfl ?_)
      rw [hmem, writeTable_memOf, mem_memOf, length_append, Nat.add_right_comm]
    · rw [hversion]
      intro l f hf
      obtain hf | ⟨-, rfl⟩ := (mem_flushEdit cfg _ hnum l f).mp hf
      · exact (hnum l f hf).trans hnumber
      · exact hnumber

theorem Live.trace (h : Live S H calls st) {events : List (WriteQueue.Event K V)}
    (hrun : Trace st (Step cfg env) events st') :
    Live S H (calls ++ WriteQueue.enqueued events) st' ∧ Keeps st st' := by
  refine hrun.invariant (I := fun events st' =>
    Live S H (calls ++ WriteQueue.enqueued events) st' ∧ Keeps st st') ?_ ?_
  · refine ⟨?_, .refl st⟩
    rw [show WriteQueue.enqueued ([] : List (WriteQueue.Event K V)) = [] from rfl, append_nil]
    exact h
  · intro events e a b _ ⟨hlive, hkeeps⟩ hstep
    have hkeep := hstep.keeps hlive
    refine ⟨?_, hkeeps.trans hkeep⟩
    have hwork : WriteQueue.enqueued (events ++ [WriteQueue.Event.work]) =
        WriteQueue.enqueued events := by
      simp [WriteQueue.enqueued]
    cases hstep with
    | enqueue w =>
      have hcalls : WriteQueue.enqueued (events ++ [.enqueue w]) =
          WriteQueue.enqueued events ++ [w] := by
        simp [WriteQueue.enqueued]
      rw [hcalls, ← append_assoc]
      exact hlive.enqueue w
    | writing hstep hfits =>
      rw [hwork]
      exact hlive.writing hstep hfits hkeep
    | startFlush himm hidle =>
      rw [hwork]
      refine { hlive with write := WriteQueue.Background.inv (.startFlush himm hidle) hlive.write,
                          numbers := ?_, flushing_lt := ?_ }
      · exact fun l f hf => (hlive.numbers l f hf).trans_le hkeep.bound
      · intro number hf
        rw [← Option.some.inj hf]
        exact Nat.lt_succ_self _
    | installFlush hflushing hlast =>
      rw [hwork]
      exact hlive.installFlush hflushing hlast

end Shared

/-! ## What a reader sees -/

theorem length_le_of_memOf_sub {n : Nat} {a b : List (Op K V)}
    (h : ∀ e ∈ memOf n a, e ∈ memOf n b) : a.length ≤ b.length := by
  obtain rfl | ⟨older, op, rfl⟩ := eq_nil_or_concat a
  · exact Nat.zero_le _
  · -- the entry of the last operation has the largest number
    have hmem : op.entry (n + older.length) ∈ memOf n (older.concat op) := by
      rw [mem_memOf, concat_eq_append, entriesFrom_append]
      simp [entriesFrom]
    have hlt := (entriesFrom_sequence (mem_memOf.mp (h _ hmem))).2
    rw [Op.entry_sequence] at hlt
    rw [length_concat]
    omega

namespace Shared

variable {S : Set (Entry K V)} {H : List (Op K V)} {calls calls' : List (Writer K V)}
  {st st' : Shared K V}

def immOps (st : Shared K V) : List (Op K V) :=
  if st.write.imm then st.write.closed.getLast?.elim [] Generation.ops else []

omit [LinearOrder K] [Inhabited V] in
theorem flushed_append_immOps [LinearOrder K] (st : Shared K V) :
    st.write.flushed.flatMap Generation.ops ++ st.immOps =
      st.write.closed.flatMap Generation.ops := by
  unfold WriteQueue.flushed immOps
  split_ifs
  · obtain hnil | ⟨older, g, hclosed⟩ := eq_nil_or_concat st.write.closed
    · rw [hnil]
      rfl
    · rw [hclosed, concat_eq_append]
      simp
  · exact append_nil _

theorem Live.layers (h : Live S H calls st) (hkeeps : Keeps st st') (h' : Live S H calls' st') :
    ∃ c, Layers S H (st'.memtable st.capture.mem) (st.capture.imm.map st'.memtable) st.version
        st'.store (st.write.flushed.flatMap Generation.ops) st.immOps c ∧
      st.write.flushed.flatMap Generation.ops ++ st.immOps ++ c <+:
        writtenOps st'.write.done ++ st'.write.phase.inserted ∧
      writtenOps st.write.done <+: st.write.flushed.flatMap Generation.ops ++ st.immOps ++ c := by
  obtain ⟨ops, hops, -, hmem⟩ := h.write.current
  obtain ⟨g, hg, hgrow⟩ := hkeeps.grows.log
  -- the captured memtable among the generations of the later state
  obtain ⟨rest, hrest⟩ : st.write.closed <+: st'.write.generations :=
    hkeeps.grows.closed.trans (prefix_append _ _)
  obtain ⟨after, hsplit⟩ : ∃ after, st'.write.generations = st.write.closed ++ g :: after := by
    rw [← hrest, getElem?_append_right (le_refl _), Nat.sub_self] at hg
    cases rest with
    | nil => cases hg
    | cons x after =>
      obtain rfl := Option.some.inj hg
      exact ⟨after, hrest.symm⟩
  obtain ⟨c, hc, hpre⟩ := h'.write.generation_mem hsplit
  have hlen : ops.length ≤ c.length := by
    have hsub : ∀ e ∈ memOf (H.length + 1 + (st.write.closed.flatMap Generation.ops).length)
        (ops ++ st.write.phase.inserted),
        e ∈ memOf (H.length + 1 + (st.write.closed.flatMap Generation.ops).length) c := by
      rw [← hmem, ← hc]
      exact hgrow.mem
    have := length_le_of_memOf_sub hsub
    rw [length_append] at this
    omega
  have hmemtable : st'.memtable st.capture.mem = g.mem := by
    unfold memtable
    rw [show st.capture.mem = st.write.closed.length from rfl, hg]
    rfl
  have hstore : ∀ l, ∀ f ∈ st.version.files l, st'.store f.number = st.store f.number :=
    fun l f hf => hkeeps.store _ (h.numbers l f hf)
  refine ⟨c, ⟨h.base, h.holds.congr hstore, ?_, ?_, ?_⟩, ?_, ?_⟩
  · intro e
    rw [Version.entries_congr hstore, h.entries]
  · unfold capture immOps WriteQueue.flushed
    dsimp only
    split_ifs with himm
    · obtain hnil | ⟨older, gi, hclosed⟩ := eq_nil_or_concat st.write.closed
      · exact absurd hnil (h.write.imm himm)
      · rw [concat_eq_append] at hclosed
        have hfiled := h.write.filed
        rw [hclosed, filed_append] at hfiled
        right
        rw [Option.map_some, memtable, hsplit, hclosed]
        simp [hfiled.2.2.1]
    · exact Or.inl ⟨rfl, rfl⟩
  · rw [hmemtable, hc, Nat.add_assoc _ (List.length _), ← length_append,
      flushed_append_immOps]
  · rw [flushed_append_immOps]
    exact hpre
  · rw [flushed_append_immOps]
    refine prefix_of_prefix_length_le ?_ hpre ?_
    · exact (List.IsPrefix.flatMap hkeeps.grows.done _).trans (prefix_append _ _)
    · rw [← hops, length_append, length_append]
      omega

/-- What the operations of `H` and later ones make of the keys, where `v` is the version that
    holds `H`. -/
def openedMap (v : Version K) (store : TableStore K V) (n : Nat) (k : K) : Option V :=
  match dbGet [] none v store.cacheGet k n with
  | .ok o => o
  | .error _ => none

end Shared

namespace Holds

variable {v : Version K} {store : TableStore K V} {H : List (Op K V)}

theorem layers (h : Holds False v store H) : Layers (v.entries store) H [] none v store [] [] [] :=
  ⟨h.sub, by rw [append_nil]; exact h, by simp [entriesFrom], Or.inl ⟨rfl, rfl⟩, rfl⟩

theorem openedMap_eq (h : Holds False v store H) (k : K) (val : V) :
    Entry.Visible (v.entries store) k H.length val ↔
      Shared.openedMap v store H.length k = some val := by
  have hset : ∀ e, e ∈ dbEntries [] none v store ↔ e ∈ v.entries store := by
    intro e
    rw [h.layers.mem_dbEntries]
    simp [entriesFrom]
  rw [← Entry.visible_congr (fun e _ _ => hset e) val, ← (dbGet_spec h.layers.readable k _).1 val]
  unfold Shared.openedMap
  cases dbGet [] none v store.cacheGet k H.length with
  | ok o => simp
  | error st => simp

end Holds

namespace Shared

variable {S : Set (Entry K V)} {H : List (Op K V)}

/-- **Snapshot isolation.** A snapshot is taken in `st₀`, a reader captures memtables and version
    in `st₁`, and reads them in `st₂`, in any run. Let `view` be the map that the batches completed
    at the snapshot, applied one after another, make of the map at `DB::Open`. Then:
    * a call of `Write` that had returned is among those batches;
    * `view` has for each key the operation with the largest sequence number up to the snapshot;
    * `Get` reports what is in `view`, whenever the reader captures and reads;
    * an iterator is a cursor over `view`, whatever entries it meets on its way beside those it
      can see.
    Without a snapshot `st₀` is `st₁`. -/
theorem snapshot_isolation [Inhabited K] [KeyBytes K] (cfg : Config K V) (env : WriteEnv K V)
    {v : Version K} {store : TableStore K V} (hbase : Holds False v store H)
    (hfits : H.length ≤ kMaxSequenceNumber) {logNumber : Nat}
    (hnum : ∀ l, ∀ f ∈ v.files l, f.number < logNumber)
    {before between after : List (WriteQueue.Event K V)} {st₀ st₁ st₂ : Shared K V}
    (h₀ : Trace (opened H.length logNumber v store) (Step cfg env) before st₀)
    (h₁ : Trace st₀ (Step cfg env) between st₁) (h₂ : Trace st₁ (Step cfg env) after st₂) :
    let s := st₀.write.lastSequence
    let view := (writtenOps st₀.write.done).foldl applyOp (openedMap v store H.length)
    (∀ i ∈ st₀.write.returned, i < st₀.write.done.length) ∧
    (∀ k val, view k = some val ↔ Entry.Visible {e | e ∈ v.entries store ∨
      e ∈ entriesFrom (H.length + 1) (writtenOps st₀.write.done)} k s val) ∧
    (∀ k, Reports (st₁.capture.get st₂ k s) (view k)) ∧
    ∃ m : List (K × V), Strict Prod.fst m ∧ (∀ k val, (k, val) ∈ m ↔ view k = some val) ∧
      ∀ calls : List (List (Entry K V) × Cursor.Call K),
        (∀ p ∈ calls, Between (st₁.capture.entries st₂) s p.1) →
        Cursor.run (DBIter.stepOn s) DBIter.current DBIter.init calls =
          Cursor.run (Cursor.step Prod.fst m) Cursor.current .invalid (calls.map Prod.snd) := by
  intro s view
  obtain ⟨hlive₀, -⟩ := (Live.opened hbase hnum hfits).trace h₀
  obtain ⟨hlive₁, hkeeps₁⟩ := hlive₀.trace h₁
  obtain ⟨hlive₂, hkeeps₂⟩ := hlive₁.trace h₂
  obtain ⟨c, hlayers, -, hpre⟩ := hlive₁.layers hkeeps₂ hlive₂
  have hs : s = H.length + (writtenOps st₀.write.done).length := hlive₀.write.last
  have hview : ∀ k val, view k = some val ↔ Entry.Visible {e | e ∈ v.entries store ∨
      e ∈ entriesFrom (H.length + 1) (writtenOps st₀.write.done)} k s val := by
    intro k val
    exact (visible_over (fun e he => (hbase.sequence_bounds he).2) (hbase.openedMap_eq k) _ hs.ge
      val).symm
  -- up to the snapshot the captured entries are those of the completed batches
  obtain ⟨more, hmore⟩ : writtenOps st₀.write.done <+:
      st₁.write.flushed.flatMap Generation.ops ++ st₁.immOps ++ c :=
    (List.IsPrefix.flatMap hkeeps₁.grows.done _).trans hpre
  have hentries : ∀ e, e.sequence ≤ s → (e ∈ st₁.capture.entries st₂ ↔ e ∈ v.entries store ∨
      e ∈ entriesFrom (H.length + 1) (writtenOps st₀.write.done)) := by
    intro e he
    refine hlayers.mem_dbEntries.trans (or_congr Iff.rfl ?_)
    rw [← hmore, entriesFrom_append, mem_append]
    refine ⟨fun h => h.resolve_right fun hlate => ?_, Or.inl⟩
    have := (entriesFrom_sequence hlate).1
    omega
  have hvis : ∀ k val, Entry.Visible (st₁.capture.entries st₂) k s val ↔ view k = some val := by
    intro k val
    rw [hview]
    exact Entry.visible_congr (fun e _ he => hentries e he) val
  refine ⟨hlive₀.write.returned, hview, fun k => hlayers.readable.dbGet_reports (hvis k), ?_⟩
  obtain ⟨es, hstrict, hmem⟩ := hlayers.exists_sorted
  have hes : Between (st₁.capture.entries st₂) s es :=
    ⟨hstrict, fun e he => (hmem e).mp he, fun e he _ => (hmem e).mpr he⟩
  have hread := hlayers.readable
  refine ⟨visibleMap es s, visibleMap_strict hes.strict, ?_, ?_⟩
  · intro k val
    rw [mem_visibleMap, ← hvis k val]
    exact Entry.visible_congr (fun e _ _ => hmem e) val
  · intro calls hcalls
    refine DBIter.run_between ?_ hread.wellFormed hes calls hcalls
    intro a ha b hb hkey
    refine hread.inj a ha b hb ?_ ?_
    · exact congrArg InternalKey.userKey hkey
    · exact congrArg InternalKey.tag hkey

/-! A reader beside the second writer of `WriteQueue.twoWriters_run`, whose operation is in the
memtable and not yet published. -/

def exampleConfig : Config Nat Nat := .oneBlock "leveldb.BytewiseComparator" 100

def exampleOpened : Shared Nat Nat :=
  opened 0 3 Version.empty fun _ => Table.ofEntries [] Table.strict_nil Table.wellFormed_nil

def exampleWritten : Shared Nat Nat :=
  { exampleOpened with
    write := { exampleOpened.write with
      done := [WriteQueue.firstWriter]
      lastSequence := 2
      log := ⟨3, LogFile.empty.append ⟨1, [.put 1 10, .delete 2]⟩, memOf 1 [.put 1 10, .delete 2]⟩ } }

theorem exampleWritten_run : ∃ events,
    Trace exampleOpened (Step exampleConfig WriteQueue.exampleEnv) events exampleWritten := by
  have s0 : Trace exampleOpened (Step exampleConfig WriteQueue.exampleEnv) [] exampleOpened := .start
  have s1 := (s0.step (.enqueue WriteQueue.firstWriter)).step
    (.writing (.lead rfl rfl) (by decide))
  have s2 := (s1.step (.writing (.group rfl (by decide) rfl rfl) (by decide))).step
    (.writing (.append rfl) (by decide))
  have s3 := (s2.step (.writing (.sync rfl rfl) (by decide))).step
    (.writing (.insert rfl) (by decide))
  have s4 := (s3.step (.writing (.insert rfl) (by decide))).step
    (.writing (.finish rfl) (by decide))
  exact ⟨_, s4⟩

theorem inserting_run : ∃ (between : List (WriteQueue.Event Nat Nat)) (st₁ : Shared Nat Nat),
    Trace exampleWritten (Step exampleConfig WriteQueue.exampleEnv) between st₁ ∧
    (Op.put 2 20).entry 3 ∈ st₁.memtable st₁.capture.mem := by
  have s0 : Trace exampleWritten (Step exampleConfig WriteQueue.exampleEnv) [] exampleWritten :=
    .start
  have s1 := (s0.step (.enqueue WriteQueue.secondWriter)).step
    (.writing (.lead rfl rfl) (by decide))
  have s2 := (s1.step (.writing (.group rfl (by decide) rfl rfl) (by decide))).step
    (.writing (.append rfl) (by decide))
  have s3 := (s2.step (.writing (.sync rfl rfl) (by decide))).step
    (.writing (.insert rfl) (by decide))
  exact ⟨_, _, s3, mem_cons_of_mem _ mem_cons_self⟩

theorem snapshot_isolation_example : ∃ st₀ st₁ : Shared Nat Nat,
    st₀.write.lastSequence = 2 ∧ (Op.put 2 20).entry 3 ∈ st₁.memtable st₁.capture.mem ∧
    st₁.capture.get st₁ 1 2 = .ok (some 10) ∧
    ∃ st, st₁.capture.get st₁ 2 2 = .error st ∧ st.isNotFound = true := by
  obtain ⟨before, h₀⟩ := exampleWritten_run
  obtain ⟨between, st₁, h₁, hmem⟩ := inserting_run
  obtain ⟨-, -, hget, -⟩ := snapshot_isolation exampleConfig WriteQueue.exampleEnv (H := [])
    (.empty _) (Nat.zero_le _) (fun l f hf => absurd hf not_mem_nil) h₀ h₁ .start
  exact ⟨exampleWritten, st₁, rfl, hmem, hget 1, hget 2⟩

end Shared

end LevelDB
