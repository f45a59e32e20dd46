/-
  Concurrent writes (`DBImpl::Write`, `MakeRoomForWrite` and `BuildBatchGroup`,
  `db/db_impl.cc`), without I/O errors.

  The writer at the front leads. It makes room, which may release the mutex, merges a prefix of
  the queue into one batch, and with the mutex released appends the batch to the log, syncs the log
  if asked to, and inserts the operations into the memtable. Then the group is popped and reported
  done. `Step` has one step for each stretch between two points where other threads may run.

  A memtable is kept with the log of its operations (`Generation`), also after it was switched.
-/
import LevelDB.Db.Contents
import LevelDB.Lib.Trace

namespace LevelDB

open List SortedList Transition

variable {K V : Type}

def kL0_SlowdownWritesTrigger : Nat := 8

def kL0_StopWritesTrigger : Nat := 12

/-! ## Groups of writers -/

/-- `struct DBImpl::Writer`. A null batch asks for a new memtable. -/
structure Writer (K V : Type) where
  batch : Option (List (Op K V))
  sync : Bool
  deriving DecidableEq

def Writer.ops (w : Writer K V) : List (Op K V) := w.batch.getD []

def writtenOps (ws : List (Writer K V)) : List (Op K V) := ws.flatMap Writer.ops

@[simp] theorem writtenOps_append (a b : List (Writer K V)) :
    writtenOps (a ++ b) = writtenOps a ++ writtenOps b := flatMap_append

@[simp] theorem writtenOps_nil : writtenOps ([] : List (Writer K V)) = [] := rfl

@[simp] theorem writtenOps_cons (w : Writer K V) (ws : List (Writer K V)) :
    writtenOps (w :: ws) = w.ops ++ writtenOps ws := flatMap_cons

/-- The result of `BuildBatchGroup`: the number of writers up to `last_writer`, the operations
    of the batch, and whether the batch is `tmp_batch_`. -/
structure BatchGroup (K V : Type) where
  writers : Nat
  ops : List (Op K V)
  merged : Bool
  deriving DecidableEq

/-- The loop of `BuildBatchGroup`. `first` and `sync` are of the leader, `size` is the number of
    bytes so far, and `tmp` is what `tmp_batch_` holds before. -/
def buildLoop (byteSize : List (Op K V) → Nat) (first : List (Op K V)) (sync : Bool)
    (tmp : List (Op K V)) (maxSize : Nat) :
    Nat → BatchGroup K V → List (Writer K V) → BatchGroup K V
  | _, g, [] => g
  | size, g, w :: ws =>
    if w.sync && !sync then g
    else
      match w.batch with
      | none => buildLoop byteSize first sync tmp maxSize size { g with writers := g.writers + 1 } ws
      | some ops =>
        if maxSize < size + byteSize ops then g
        else
          let result := if g.merged then g.ops else tmp ++ first
          buildLoop byteSize first sync tmp maxSize (size + byteSize ops)
            ⟨g.writers + 1, result ++ ops, true⟩ ws

/-- `BuildBatchGroup`, for a leader with the batch `first` in front of the writers `rest`. -/
def buildBatchGroup (byteSize : List (Op K V) → Nat) (tmp first : List (Op K V)) (sync : Bool)
    (rest : List (Writer K V)) : BatchGroup K V :=
  let size := byteSize first
  let maxSize := if size ≤ 128 <<< 10 then size + (128 <<< 10) else 1 <<< 20
  buildLoop byteSize first sync tmp maxSize size ⟨1, first, false⟩ rest

/-- A group of the writers in front of `queue`: its batch has their operations, and nobody in it
    asks for a sync that the leader does not ask for. -/
structure BatchGroup.Heads (g : BatchGroup K V) (queue : List (Writer K V)) : Prop where
  pos : 0 < g.writers
  le : g.writers ≤ queue.length
  ops : g.ops = writtenOps (queue.take g.writers)
  sync : ∀ w ∈ queue.take g.writers, w.sync = true → ∀ first, queue.head? = some first →
    first.sync = true

namespace BatchGroup.Heads

variable {g g' : BatchGroup K V} {w x : Writer K V} {seen : List (Writer K V)}

theorem append {queue : List (Writer K V)} (h : g.Heads queue) (more : List (Writer K V)) :
    g.Heads (queue ++ more) := by
  have htake : (queue ++ more).take g.writers = queue.take g.writers :=
    take_append_of_le_length h.le
  refine ⟨h.pos, ?_, ?_, ?_⟩
  · rw [length_append]
    exact h.le.trans (Nat.le_add_right _ _)
  · rw [htake]
    exact h.ops
  · rw [htake]
    intro x hx hs first hfirst
    refine h.sync x hx hs first ?_
    cases queue with
    | nil => exact absurd (h.pos.trans_le h.le) (lt_irrefl 0)
    | cons y queue => exact hfirst

theorem snoc (h : g.Heads (w :: seen)) (hlen : g.writers = (w :: seen).length)
    (hx : ¬ (x.sync && !w.sync) = true) (hn : g'.writers = g.writers + 1)
    (hops : g'.ops = g.ops ++ x.ops) : g'.Heads (w :: (seen ++ [x])) := by
  have htake : (w :: seen).take g.writers = w :: seen := take_of_length_le hlen.ge
  have hlen' : g'.writers = (w :: (seen ++ [x])).length := by
    rw [hn, hlen]
    simp
  have htake' : (w :: (seen ++ [x])).take g'.writers = w :: (seen ++ [x]) :=
    take_of_length_le hlen'.ge
  refine ⟨by omega, hlen'.le, ?_, ?_⟩
  · rw [htake', hops, h.ops, htake]
    simp
  · rw [htake']
    intro y hy hys first hfirst
    obtain rfl := Option.some.inj hfirst
    obtain hy | rfl : y ∈ w :: seen ∨ y = x := by simpa [or_assoc] using hy
    · exact h.sync y (by rw [htake]; exact hy) hys w rfl
    · simpa [hys] using hx

end BatchGroup.Heads

theorem buildLoop_spec {byteSize : List (Op K V) → Nat} {w : Writer K V} {first : List (Op K V)}
    {maxSize : Nat} (rest : List (Writer K V)) (size : Nat) {g : BatchGroup K V}
    {seen : List (Writer K V)} (hg : g.Heads (w :: seen)) (hlen : g.writers = (w :: seen).length)
    (hfirst : g.merged = false → g.ops = first) :
    (buildLoop byteSize first w.sync [] maxSize size g rest).Heads (w :: (seen ++ rest)) := by
  induction rest generalizing size g seen with
  | nil =>
    rw [append_nil]
    exact hg
  | cons x rest ih =>
    have happend : w :: (seen ++ x :: rest) = w :: ((seen ++ [x]) ++ rest) := by simp
    have hlen' : g.writers + 1 = (w :: (seen ++ [x])).length := by
      rw [hlen]
      simp
    unfold buildLoop
    by_cases hx : (x.sync && !w.sync) = true
    · rw [if_pos hx]
      exact hg.append (x :: rest)
    · rw [if_neg hx]
      cases hbatch : x.batch with
      | none =>
        have hops : x.ops = [] := by rw [Writer.ops, hbatch]; rfl
        rw [happend]
        refine ih size (hg.snoc hlen hx rfl ?_) hlen' hfirst
        rw [hops, append_nil]
      | some ops =>
        have hops : x.ops = ops := by rw [Writer.ops, hbatch]; rfl
        -- the batch so far, wherever it is
        have hresult : (if g.merged then g.ops else [] ++ first) = g.ops := by
          split_ifs with hmerged
          · rfl
          · exact (hfirst (by simpa using hmerged)).symm
        dsimp only
        rw [hresult]
        split_ifs with hsize
        · exact hg.append (x :: rest)
        · rw [happend]
          refine ih _ (hg.snoc hlen hx rfl ?_) hlen' (by simp)
          rw [hops]

/-- **Groups.** With `tmp_batch_` empty the batch has the operations of the writers up to
    `last_writer`, in the order of the queue. -/
theorem buildBatchGroup_spec (byteSize : List (Op K V) → Nat) {w : Writer K V}
    {first : List (Op K V)} (hw : w.batch = some first) (rest : List (Writer K V)) :
    (buildBatchGroup byteSize [] first w.sync rest).Heads (w :: rest) := by
  have hone : (⟨1, first, false⟩ : BatchGroup K V).Heads [w] := by
    refine ⟨Nat.one_pos, le_refl 1, ?_, ?_⟩
    · simp [Writer.ops, hw]
    · simp
  exact buildLoop_spec rest _ hone rfl fun _ => rfl

/-! ## The shared state -/

/-- A log file, with the memtable that its records are inserted into. -/
structure Generation (K V : Type) where
  number : Nat
  file : LogFile (WriteBatch K V)
  mem : MemTable K V

namespace Generation

def new (number : Nat) : Generation K V := ⟨number, .empty, []⟩

def ops (g : Generation K V) : List (Op K V) := g.file.records.flatMap WriteBatch.ops

end Generation

/-- Where the writer at the front of the queue is in `Write`. -/
inductive Phase (K V : Type) where
  | waiting
  /-- In the loop of `MakeRoomForWrite`. -/
  | makingRoom (force allowDelay : Bool)
  /-- The mutex is released; the record is not yet in the log. -/
  | appending (group : BatchGroup K V) (batch : WriteBatch K V)
  /-- The record is in the log. -/
  | syncing (group : BatchGroup K V) (batch : WriteBatch K V)
  /-- In `WriteBatchInternal::InsertInto`, with the next number and the operations to go. -/
  | inserting (group : BatchGroup K V) (batch : WriteBatch K V) (sequence : Nat)
      (rest : List (Op K V))

namespace Phase

def appended : Phase K V → List (Op K V)
  | syncing _ b => b.ops
  | inserting _ b _ _ => b.ops
  | _ => []

def inserted : Phase K V → List (Op K V)
  | inserting _ b n _ => b.ops.take (n - b.sequence)
  | _ => []

end Phase

/-- What the writers and the background thread share. A writer is known by its place in the
    order of the calls: `done` are the writers that were popped off the queue and reported done,
    and `returned` has the places of those whose call has returned. The last of the `closed`
    generations is `imm_` as long as `imm` is set, and `flushing` is the number of the table
    that is built from it. `levelZero` is the number of files in level 0. -/
structure WriteQueue (K V : Type) where
  queue : List (Writer K V)
  phase : Phase K V
  tmpBatch : List (Op K V)
  done : List (Writer K V)
  returned : List Nat
  lastSequence : Nat
  closed : List (Generation K V)
  log : Generation K V
  imm : Bool
  flushing : Option Nat
  levelZero : Nat
  nextFileNumber : Nat

/-- What the writers depend on: `WriteBatchInternal::ByteSize`, and whether
    `ApproximateMemoryUsage()` of a memtable is above `write_buffer_size`. An empty memtable has
    one block of its arena, less than the smallest buffer that `SanitizeOptions` allows. -/
structure WriteEnv (K V : Type) where
  byteSize : List (Op K V) → Nat
  full : MemTable K V → Bool
  full_nil : full [] = false

namespace WriteQueue

/-- After `DB::Open`, with `n` operations in the database. -/
def init (n logNumber levelZero : Nat) : WriteQueue K V where
  queue := []
  phase := .waiting
  tmpBatch := []
  done := []
  returned := []
  lastSequence := n
  closed := []
  log := .new logNumber
  imm := false
  flushing := none
  levelZero := levelZero
  nextFileNumber := logNumber + 1

/-- The generations since `DB::Open`. -/
def generations (st : WriteQueue K V) : List (Generation K V) := st.closed ++ [st.log]

def records (st : WriteQueue K V) : List (WriteBatch K V) :=
  st.generations.flatMap fun g => g.file.records

def memEntries (st : WriteQueue K V) : List (Entry K V) := st.generations.flatMap Generation.mem

end WriteQueue

/-! ## Logs and memtables grow -/

/-- Records are added at the end, more of them are synced, and entries are added. -/
structure Generation.Grows (g g' : Generation K V) : Prop where
  records : g.file.records <+: g'.file.records
  durable : g.file.durable ≤ g'.file.durable
  mem : ∀ e ∈ g.mem, e ∈ g'.mem

namespace Generation.Grows

theorem refl (g : Generation K V) : g.Grows g := ⟨prefix_rfl, le_refl _, fun _ he => he⟩

theorem trans {a b c : Generation K V} (hab : a.Grows b) (hbc : b.Grows c) : a.Grows c :=
  ⟨hab.records.trans hbc.records, hab.durable.trans hbc.durable,
    fun e he => hbc.mem e (hab.mem e he)⟩

end Generation.Grows

namespace WriteQueue

/-- Generations that were closed stay as they are, and the current one grows. -/
structure Grows (st st' : WriteQueue K V) : Prop where
  closed : st.closed <+: st'.closed
  log : ∃ g, st'.generations[st.closed.length]? = some g ∧ st.log.Grows g
  done : st.done <+: st'.done

namespace Grows

variable {st st' st'' : WriteQueue K V}

theorem log_getElem (st : WriteQueue K V) : st.generations[st.closed.length]? = some st.log := by
  simp [generations]

theorem of_log (hclosed : st'.closed = st.closed) (hlog : st.log.Grows st'.log)
    (hdone : st.done <+: st'.done) : Grows st st' :=
  ⟨by rw [hclosed], ⟨st'.log, by rw [← hclosed]; exact log_getElem st', hlog⟩, hdone⟩

theorem refl (st : WriteQueue K V) : Grows st st := of_log rfl (.refl _) prefix_rfl

theorem closed_getElem (h : Grows st st') {i : Nat} (hi : i < st.closed.length) :
    st'.generations[i]? = st.generations[i]? := by
  obtain ⟨more, hmore⟩ := h.closed
  unfold generations
  rw [← hmore, append_assoc, getElem?_append_left hi, getElem?_append_left hi]

theorem trans (h : Grows st st') (h' : Grows st' st'') : Grows st st'' := by
  refine ⟨h.closed.trans h'.closed, ?_, h.done.trans h'.done⟩
  obtain ⟨g, hg, hgrow⟩ := h.log
  obtain hlt | heq := h.closed.length_le.lt_or_eq
  · -- the generation has been closed
    exact ⟨g, by rw [h'.closed_getElem hlt]; exact hg, hgrow⟩
  · rw [heq, log_getElem] at hg
    obtain rfl := Option.some.inj hg
    obtain ⟨g', hg', hgrow'⟩ := h'.log
    exact ⟨g', by rw [heq]; exact hg', hgrow.trans hgrow'⟩

theorem exists_of_mem (h : Grows st st') {g : Generation K V} (hg : g ∈ st.generations) :
    ∃ g' ∈ st'.generations, g.Grows g' := by
  obtain hg | hg := mem_append.mp hg
  · exact ⟨g, mem_append_left _ (h.closed.subset hg), .refl g⟩
  · grind [mem_singleton, h.log, mem_of_getElem?]

end Grows

/-! ## Steps -/

/-- What `MakeRoomForWrite` does in one turn of its loop. -/
inductive Room where
  | delay
  | enough
  | wait
  | switch
  deriving DecidableEq

/-- One turn of the loop of `MakeRoomForWrite`, without a background error. -/
def makeRoomForWrite (env : WriteEnv K V) (st : WriteQueue K V) (force allowDelay : Bool) : Room :=
  if allowDelay && decide (kL0_SlowdownWritesTrigger ≤ st.levelZero) then .delay
  else if !force && !env.full st.log.mem then .enough
  else if st.imm then .wait
  else if kL0_StopWritesTrigger ≤ st.levelZero then .wait
  else .switch

def switchMemTable (st : WriteQueue K V) (allowDelay : Bool) : WriteQueue K V :=
  { st with
    phase := .makingRoom false allowDelay
    closed := st.closed ++ [st.log]
    log := .new st.nextFileNumber
    imm := true
    nextFileNumber := st.nextFileNumber + 1 }

def startGroup (st : WriteQueue K V) (g : BatchGroup K V) : WriteQueue K V :=
  { st with
    phase := .appending g ⟨st.lastSequence + 1, g.ops⟩
    tmpBatch := if g.merged then g.ops else st.tmpBatch }

/-- `log_->AddRecord`. -/
def addRecord (st : WriteQueue K V) (g : BatchGroup K V) (b : WriteBatch K V) : WriteQueue K V :=
  { st with phase := .syncing g b, log := { st.log with file := st.log.file.append b } }

/-- `logfile_->Sync`, if the leader asks for it. -/
def syncLog (st : WriteQueue K V) (g : BatchGroup K V) (b : WriteBatch K V) (sync : Bool) :
    WriteQueue K V :=
  { st with
    phase := .inserting g b b.sequence b.ops
    log := { st.log with file := if sync then st.log.file.sync else st.log.file } }

/-- The first `n` writers are popped, and reported done. -/
def pop (st : WriteQueue K V) (n : Nat) : WriteQueue K V :=
  { st with
    phase := .waiting
    queue := st.queue.drop n
    done := st.done ++ st.queue.take n }

def finishGroup (st : WriteQueue K V) (g : BatchGroup K V) (b : WriteBatch K V) : WriteQueue K V :=
  { st.pop g.writers with
    tmpBatch := if g.merged then [] else st.tmpBatch
    lastSequence := st.lastSequence + b.ops.length }

end WriteQueue

variable [LinearOrder K] [Inhabited V]

namespace WriteQueue

/-- `MemTableInserter`, for one operation. -/
def insertOp (st : WriteQueue K V) (g : BatchGroup K V) (b : WriteBatch K V) (n : Nat) (op : Op K V)
    (rest : List (Op K V)) : WriteQueue K V :=
  { st with
    phase := .inserting g b (n + 1) rest
    log := { st.log with mem := st.log.mem.add (op.entry n) } }

/-- The steps of the threads in `Write`. -/
inductive Writing (env : WriteEnv K V) : WriteQueue K V → WriteQueue K V → Prop where
  | lead {st : WriteQueue K V} {w : Writer K V} {rest : List (Writer K V)}
      (hphase : st.phase = .waiting) (hqueue : st.queue = w :: rest) :
      Writing env st { st with phase := .makingRoom w.batch.isNone (!w.batch.isNone) }
  | delay {st : WriteQueue K V} {force allowDelay : Bool}
      (hphase : st.phase = .makingRoom force allowDelay)
      (hroom : st.makeRoomForWrite env force allowDelay = .delay) :
      Writing env st { st with phase := .makingRoom force false }
  | switch {st : WriteQueue K V} {force allowDelay : Bool}
      (hphase : st.phase = .makingRoom force allowDelay)
      (hroom : st.makeRoomForWrite env force allowDelay = .switch) :
      Writing env st (st.switchMemTable allowDelay)
  | skip {st : WriteQueue K V} {force allowDelay : Bool} {w : Writer K V}
      {rest : List (Writer K V)} (hphase : st.phase = .makingRoom force allowDelay)
      (hroom : st.makeRoomForWrite env force allowDelay = .enough) (hqueue : st.queue = w :: rest)
      (hbatch : w.batch = none) : Writing env st (st.pop 1)
  | group {st : WriteQueue K V} {force allowDelay : Bool} {w : Writer K V}
      {rest : List (Writer K V)} {ops : List (Op K V)}
      (hphase : st.phase = .makingRoom force allowDelay)
      (hroom : st.makeRoomForWrite env force allowDelay = .enough) (hqueue : st.queue = w :: rest)
      (hbatch : w.batch = some ops) :
      Writing env st (st.startGroup (buildBatchGroup env.byteSize st.tmpBatch ops w.sync rest))
  | append {st : WriteQueue K V} {g : BatchGroup K V} {b : WriteBatch K V}
      (hphase : st.phase = .appending g b) : Writing env st (st.addRecord g b)
  | sync {st : WriteQueue K V} {g : BatchGroup K V} {b : WriteBatch K V} {w : Writer K V}
      {rest : List (Writer K V)} (hphase : st.phase = .syncing g b) (hqueue : st.queue = w :: rest) :
      Writing env st (st.syncLog g b w.sync)
  | insert {st : WriteQueue K V} {g : BatchGroup K V} {b : WriteBatch K V} {n : Nat} {op : Op K V}
      {rest : List (Op K V)} (hphase : st.phase = .inserting g b n (op :: rest)) :
      Writing env st (st.insertOp g b n op rest)
  | finish {st : WriteQueue K V} {g : BatchGroup K V} {b : WriteBatch K V} {n : Nat}
      (hphase : st.phase = .inserting g b n []) : Writing env st (st.finishGroup g b)
  | leave {st : WriteQueue K V} {i : Nat} (hdone : i < st.done.length) (hnew : i ∉ st.returned) :
      Writing env st { st with returned := st.returned ++ [i] }

/-- `BackgroundCompaction`, for what the writers see of it. A flush adds at most one file to
    level 0, and a compaction of level 0 leaves fewer files there. -/
inductive Background : WriteQueue K V → WriteQueue K V → Prop where
  | startFlush {st : WriteQueue K V} (himm : st.imm = true) (hidle : st.flushing = none) :
      Background st { st with flushing := some st.nextFileNumber
                              nextFileNumber := st.nextFileNumber + 1 }
  | installFlush {st : WriteQueue K V} {number n : Nat} (hflushing : st.flushing = some number)
      (hn : n ≤ st.levelZero + 1) :
      Background st { st with imm := false, flushing := none, levelZero := n }
  | compact {st : WriteQueue K V} {n : Nat} (hidle : st.flushing = none) (hn : n < st.levelZero) :
      Background st { st with levelZero := n }

def Internal (env : WriteEnv K V) (st st' : WriteQueue K V) : Prop :=
  Writing env st st' ∨ Background st st'

/-- A call of `Write` comes in, or a thread takes a step. -/
inductive Event (K V : Type) where
  | enqueue (w : Writer K V)
  | work

inductive Step (env : WriteEnv K V) : WriteQueue K V → Event K V → WriteQueue K V → Prop where
  | enqueue {st : WriteQueue K V} (w : Writer K V) :
      Step env st (.enqueue w) { st with queue := st.queue ++ [w] }
  | work {st st' : WriteQueue K V} (h : Internal env st st') : Step env st .work st'

/-- The calls of `Write`, in their order. -/
def enqueued (events : List (Event K V)) : List (Writer K V) :=
  events.filterMap fun
    | .enqueue w => some w
    | .work => none

theorem Writing.grows {env : WriteEnv K V} {st st' : WriteQueue K V} (h : Writing env st st') :
    Grows st st' := by
  cases h with
  | lead | delay | group | leave => exact .of_log rfl (.refl _) prefix_rfl
  | skip | finish => exact .of_log rfl (.refl _) (prefix_append _ _)
  | switch =>
    refine ⟨prefix_append _ _, ⟨st.log, ?_, .refl _⟩, prefix_rfl⟩
    simp [generations, switchMemTable]
  | append =>
    exact .of_log rfl ⟨prefix_append _ _, le_refl _, fun _ he => he⟩ prefix_rfl
  | @sync g b w _ _ _ =>
    refine .of_log rfl ?_ prefix_rfl
    unfold syncLog
    cases w.sync with
    | false => exact .refl _
    | true => exact ⟨prefix_rfl, st.log.file.durable_le, fun _ he => he⟩
  | insert =>
    refine .of_log rfl ⟨prefix_rfl, le_refl _, fun e he => ?_⟩ prefix_rfl
    exact mem_insertSorted.mpr (Or.inr he)

/-! ## The invariant -/

/-- The group `g` with the batch `b` is in flight. -/
structure Leads (st : WriteQueue K V) (g : BatchGroup K V) (b : WriteBatch K V) : Prop where
  heads : g.Heads st.queue
  batch : b = ⟨st.lastSequence + 1, g.ops⟩
  tmpBatch : st.tmpBatch = if g.merged then g.ops else []

def LastRecord (st : WriteQueue K V) (b : WriteBatch K V) : Prop :=
  ∃ records, st.log.file.records = records ++ [b]

def LeaderAt (st : WriteQueue K V) : Phase K V → Prop
  | .waiting => st.tmpBatch = []
  | .makingRoom _ _ => st.tmpBatch = [] ∧ st.queue ≠ []
  | .appending g b => st.Leads g b
  | .syncing g b => st.Leads g b ∧ st.LastRecord b
  | .inserting g b n rest => st.Leads g b ∧ st.LastRecord b ∧
    (∀ w, st.queue.head? = some w → w.sync = true → st.log.file.Synced) ∧
    ∃ ins, b.ops = ins ++ rest ∧ n = b.sequence + ins.length

end WriteQueue

/-- Generations whose batches are numbered from `n` on, and in their memtables. -/
def Filed : Nat → List (Generation K V) → Prop
  | _, [] => True
  | n, g :: gs => Numbered n g.file.records ∧ g.mem = memOf n g.ops ∧ Filed (n + g.ops.length) gs

theorem filed_append {n : Nat} {a b : List (Generation K V)} :
    Filed n (a ++ b) ↔ Filed n a ∧ Filed (n + (a.flatMap Generation.ops).length) b := by
  induction a generalizing n with
  | nil => simp [Filed]
  | cons g a ih =>
    rw [cons_append, Filed, ih, Filed, flatMap_cons, length_append, Nat.add_assoc,
      and_assoc, and_assoc]

/-- The batch of the writer lies in one record of the log, from sequence number `n` on, and its
    entries are in the memtable. A sync that the writer asked for has covered the record. -/
def Generation.Holds (g : Generation K V) (n : Nat) (w : Writer K V) : Prop :=
  ∃ (j : Nat) (b : WriteBatch K V) (pre post : List (Op K V)), g.file.records[j]? = some b ∧
    b.ops = pre ++ w.ops ++ post ∧ b.sequence + pre.length = n ∧
    (w.sync = true → j < g.file.durable) ∧ ∀ e ∈ entriesFrom n w.ops, e ∈ g.mem

omit [LinearOrder K] in
theorem Generation.Holds.grows {g g' : Generation K V} {n : Nat} {w : Writer K V}
    (h : g.Holds n w) (hgrow : g.Grows g') : g'.Holds n w := by
  obtain ⟨j, b, pre, post, hj, hops, hseq, hsync, hmem⟩ := h
  refine ⟨j, b, pre, post, ?_, hops, hseq, fun hw => (hsync hw).trans_le hgrow.durable,
    fun e he => hgrow.mem e (hmem e he)⟩
  obtain ⟨more, hmore⟩ := hgrow.records
  rw [← hmore, getElem?_append_left (List.getElem?_eq_some_iff.mp hj).1]
  exact hj

namespace WriteQueue

/-- The sequence number of the first operation of the writer with place `i`, over `n` older
    operations. -/
def firstSequence (n : Nat) (writers : List (Writer K V)) (i : Nat) : Nat :=
  n + 1 + (writtenOps (writers.take i)).length

/-- The invariant, over `n` operations that were there before, after the calls `calls`. -/
structure Inv (n : Nat) (calls : List (Writer K V)) (st : WriteQueue K V) : Prop where
  queue : calls = st.done ++ st.queue
  nodup : st.returned.Nodup
  returned : ∀ i ∈ st.returned, i < st.done.length
  last : st.lastSequence = n + (writtenOps st.done).length
  flushing : st.flushing.isSome = true → st.imm = true
  imm : st.imm = true → st.closed ≠ []
  phase : st.LeaderAt st.phase
  filed : Filed (n + 1) st.closed
  numbered : Numbered (n + 1 + (st.closed.flatMap Generation.ops).length) st.log.file.records
  current : ∃ ops, st.closed.flatMap Generation.ops ++ ops = writtenOps st.done ∧
    st.log.ops = ops ++ st.phase.appended ∧
    st.log.mem = memOf (n + 1 + (st.closed.flatMap Generation.ops).length) (ops ++ st.phase.inserted)
  reported : ∀ i w, st.done[i]? = some w → w.batch.isSome = true →
    ∃ g ∈ st.generations, g.Holds (firstSequence n st.done i) w

end WriteQueue

omit [LinearOrder K] [Inhabited V] in
theorem writtenOps_getElem {ws : List (Writer K V)} {j : Nat} {w : Writer K V}
    (h : ws[j]? = some w) :
    writtenOps ws = writtenOps (ws.take j) ++ w.ops ++ writtenOps (ws.drop (j + 1)) := by
  grind [List.getElem?_eq_some_iff, List.take_append_drop, writtenOps_append, drop_eq_getElem_cons, writtenOps_cons, append_assoc]

namespace WriteQueue

omit [LinearOrder K] [Inhabited V] in
theorem LeaderAt.congr {st st' : WriteQueue K V} {p : Phase K V} (h : st.LeaderAt p)
    (hqueue : st'.queue = st.queue) (htmp : st'.tmpBatch = st.tmpBatch)
    (hlast : st'.lastSequence = st.lastSequence) (hlog : st'.log = st.log) : st'.LeaderAt p := by
  have hleads : ∀ {g b}, st.Leads g b → st'.Leads g b := by
    intro g b hl
    exact ⟨hqueue ▸ hl.heads, hlast ▸ hl.batch, htmp ▸ hl.tmpBatch⟩
  unfold LeaderAt LastRecord at h ⊢
  rw [hqueue, htmp, hlog]
  cases p with
  | waiting | makingRoom => exact h
  | appending => exact hleads h
  | syncing | inserting => exact ⟨hleads h.1, h.2⟩

omit [LinearOrder K] [Inhabited V] in
theorem LeaderAt.enqueue {st : WriteQueue K V} {p : Phase K V} (h : st.LeaderAt p)
    (w : Writer K V) : ({ st with queue := st.queue ++ [w] } : WriteQueue K V).LeaderAt p := by
  have hleads : ∀ {g b}, st.Leads g b →
      ({ st with queue := st.queue ++ [w] } : WriteQueue K V).Leads g b :=
    fun hl => ⟨hl.heads.append [w], hl.batch, hl.tmpBatch⟩
  cases p with
  | waiting => exact h
  | makingRoom => exact ⟨h.1, by simp⟩
  | appending => exact hleads h
  | syncing => exact ⟨hleads h.1, h.2⟩
  | inserting g b =>
    obtain ⟨hl, hlast, hsync, hins⟩ := h
    refine ⟨hleads hl, hlast, ?_, hins⟩
    intro first hfirst
    refine hsync first ?_
    have hne : st.queue ≠ [] := ne_nil_of_length_pos (hl.heads.pos.trans_le hl.heads.le)
    rw [← head?_append_of_ne_nil _ hne]
    exact hfirst

namespace Inv

variable {n : Nat} {calls : List (Writer K V)} {st st' : WriteQueue K V} {g : BatchGroup K V}
  {b : WriteBatch K V}

theorem init (n logNumber levelZero : Nat) :
    Inv n [] (WriteQueue.init n logNumber levelZero : WriteQueue K V) where
  queue := rfl
  nodup := nodup_nil
  returned := by simp [WriteQueue.init]
  last := rfl
  flushing := by simp [WriteQueue.init]
  imm := by simp [WriteQueue.init]
  phase := rfl
  filed := trivial
  numbered := trivial
  current := ⟨[], rfl, rfl, rfl⟩
  reported := by simp [WriteQueue.init]

section

variable (h : Inv n calls st)
include h

theorem reported_grows (hgrow : Grows st st') (hdone : st'.done = st.done) :
    ∀ i w, st'.done[i]? = some w → w.batch.isSome = true →
      ∃ g ∈ st'.generations, g.Holds (firstSequence n st'.done i) w := by
  rw [hdone]
  intro i w hi hw
  obtain ⟨g, hg, hholds⟩ := h.reported i w hi hw
  obtain ⟨g', hg', hgg⟩ := hgrow.exists_of_mem hg
  exact ⟨g', hg', hholds.grows hgg⟩

theorem enqueue (w : Writer K V) :
    Inv n (calls ++ [w]) { st with queue := st.queue ++ [w] } :=
  { h with
    queue := by
      rw [h.queue, append_assoc]
    phase := h.phase.enqueue w }

theorem lead {w : Writer K V} {rest : List (Writer K V)}
    (hphase : st.phase = .waiting) (hqueue : st.queue = w :: rest) (force allowDelay : Bool) :
    Inv n calls { st with phase := .makingRoom force allowDelay } := by
  have hp := h.phase
  have hc := h.current
  rw [hphase] at hp hc
  exact { h with
    phase := ⟨hp, by rw [hqueue]; simp⟩
    current := hc }

section

variable {force allowDelay : Bool} (hphase : st.phase = .makingRoom force allowDelay)
include hphase

theorem delay (force' allowDelay' : Bool) :
    Inv n calls { st with phase := .makingRoom force' allowDelay' } := by
  have hp := h.phase
  have hc := h.current
  rw [hphase] at hp hc
  exact { h with
    phase := hp
    current := hc }

theorem switch :
    Inv n calls (st.switchMemTable allowDelay) := by
  have hp := h.phase
  obtain ⟨ops, hops, hlog, hmem⟩ := h.current
  rw [hphase] at hp hlog hmem
  -- nothing is in flight, so the memtable has exactly the operations of the log
  have hlog' : st.log.ops = ops := by rw [hlog]; exact append_nil _
  have hmem' : st.log.mem =
      memOf (n + 1 + (st.closed.flatMap Generation.ops).length) st.log.ops := by
    rw [hmem, hlog]
    rfl
  have hflat : (st.closed ++ [st.log]).flatMap Generation.ops = writtenOps st.done := by
    rw [flatMap_append, flatMap_singleton, hlog', hops]
  refine { h with flushing := fun _ => rfl, imm := fun _ => ?_, phase := hp, filed := ?_,
                  numbered := trivial, current := ⟨[], ?_, rfl, ?_⟩, reported := ?_ }
  · simp [switchMemTable]
  · exact filed_append.mpr ⟨h.filed, h.numbered, hmem', trivial⟩
  · rw [append_nil]
    exact hflat
  · rfl
  · refine h.reported_grows ?_ rfl
    refine ⟨prefix_append _ _, ⟨st.log, ?_, .refl _⟩, prefix_rfl⟩
    simp [generations, switchMemTable]

end

theorem group {force allowDelay : Bool} {w : Writer K V}
    {rest : List (Writer K V)} {ops : List (Op K V)} (byteSize : List (Op K V) → Nat)
    (hphase : st.phase = .makingRoom force allowDelay) (hqueue : st.queue = w :: rest)
    (hbatch : w.batch = some ops) :
    Inv n calls (st.startGroup (buildBatchGroup byteSize st.tmpBatch ops w.sync rest)) := by
  have hp := h.phase
  have hc := h.current
  rw [hphase] at hp hc
  obtain ⟨htmp, -⟩ := hp
  have hheads := buildBatchGroup_spec byteSize hbatch rest
  rw [← hqueue] at hheads
  rw [htmp]
  refine { h with phase := ⟨hheads, rfl, ?_⟩, current := hc }
  dsimp only [startGroup]
  rw [htmp]

theorem sequence_eq (hleads : st.Leads g b) {ops : List (Op K V)}
    (hops : st.closed.flatMap Generation.ops ++ ops = writtenOps st.done) :
    b.sequence = n + 1 + (st.closed.flatMap Generation.ops).length + ops.length := by
  rw [hleads.batch, h.last, ← hops, length_append]
  dsimp only
  omega

theorem append (hphase : st.phase = .appending g b) :
    Inv n calls (st.addRecord g b) := by
  have hp := h.phase
  obtain ⟨ops, hops, hlog, hmem⟩ := h.current
  rw [hphase] at hp hlog hmem
  have hlog' : st.log.ops = ops := by rw [hlog]; exact append_nil _
  refine { h with phase := ⟨⟨hp.heads, hp.batch, hp.tmpBatch⟩, _, rfl⟩, numbered := ?_,
                  current := ⟨ops, hops, ?_, hmem⟩, reported := ?_ }
  · -- the batch follows what is in the log
    refine numbered_append.mpr ⟨h.numbered, ?_, trivial⟩
    rw [h.sequence_eq hp hops, ← hlog']
    rfl
  · rw [← hlog']
    simp [addRecord, Generation.ops, Phase.appended]
  · exact h.reported_grows (.of_log rfl ⟨prefix_append _ _, le_refl _, fun _ he => he⟩
      prefix_rfl) rfl

theorem sync {w : Writer K V} {rest : List (Writer K V)}
    (hphase : st.phase = .syncing g b) (hqueue : st.queue = w :: rest)
    (hgrow : Grows st (st.syncLog g b w.sync)) : Inv n calls (st.syncLog g b w.sync) := by
  obtain ⟨ops, hops, hlog, hmem⟩ := h.current
  have hp := h.phase
  rw [hphase] at hp hlog hmem
  obtain ⟨hleads, hlast⟩ := hp
  have hrecords : (st.syncLog g b w.sync).log.file.records = st.log.file.records := by
    unfold syncLog
    cases w.sync <;> rfl
  refine { h with phase := ⟨⟨hleads.heads, hleads.batch, hleads.tmpBatch⟩, ?_, ?_, [], rfl, rfl⟩,
                  numbered := ?_, current := ⟨ops, hops, ?_, ?_⟩,
                  reported := h.reported_grows hgrow rfl }
  · unfold LastRecord
    rw [hrecords]
    exact hlast
  · intro first hfirst hsync
    change st.queue.head? = some first at hfirst
    rw [hqueue] at hfirst
    obtain rfl := Option.some.inj hfirst
    dsimp only [syncLog]
    rw [if_pos hsync]
    exact st.log.file.sync_synced
  · rw [hrecords]
    exact h.numbered
  · unfold Generation.ops
    rw [hrecords]
    exact hlog
  · rw [show (st.syncLog g b w.sync).log.mem = st.log.mem from rfl, hmem]
    simp [syncLog, Phase.inserted]

theorem insert {m : Nat} {op : Op K V} {rest : List (Op K V)}
    (hphase : st.phase = .inserting g b m (op :: rest)) :
    Inv n calls (st.insertOp g b m op rest) := by
  obtain ⟨ops, hops, hlog, hmem⟩ := h.current
  have hp := h.phase
  rw [hphase] at hp hlog hmem
  obtain ⟨hleads, hlast, hsync, ins, hins, hm⟩ := hp
  have hdone : (Phase.inserting g b m (op :: rest)).inserted = ins := by
    simp [Phase.inserted, hins, hm]
  have hnext : (Phase.inserting g b (m + 1) rest).inserted = ins ++ [op] := by
    have hlen : m + 1 - b.sequence = (ins ++ [op]).length := by
      rw [hm, length_append, length_singleton]
      omega
    rw [Phase.inserted, hlen, hins, append_cons ins op rest, take_left]
  refine { h with phase := ⟨⟨hleads.heads, hleads.batch, hleads.tmpBatch⟩, hlast, hsync,
                    ins ++ [op], ?_, ?_⟩,
                  current := ⟨ops, hops, hlog, ?_⟩, reported := ?_ }
  · rw [hins, append_cons ins op rest]
  · rw [hm, length_append, length_singleton, Nat.add_assoc]
  · -- the operation gets the number that follows those in the memtable
    have hnum : n + 1 + (st.closed.flatMap Generation.ops).length + (ops ++ ins).length = m := by
      rw [hm, h.sequence_eq hleads hops, length_append, Nat.add_assoc _ ops.length]
    change st.log.mem.add (op.entry m) =
      memOf (n + 1 + (st.closed.flatMap Generation.ops).length)
        (ops ++ (Phase.inserting g b (m + 1) rest).inserted)
    rw [hnext, ← append_assoc, memOf_append, hnum, ← hdone, ← hmem]
    rfl
  · refine h.reported_grows (.of_log rfl ⟨prefix_rfl, le_refl _, fun e he => ?_⟩
      prefix_rfl) rfl
    exact mem_insertSorted.mpr (Or.inr he)

theorem reported_pop {k : Nat}
    (hnew : ∀ j w, (st.queue.take k)[j]? = some w → w.batch.isSome = true →
      ∃ g ∈ st.generations,
        g.Holds (n + 1 + (writtenOps (st.done ++ (st.queue.take k).take j)).length) w) :
    ∀ i w, (st.done ++ st.queue.take k)[i]? = some w → w.batch.isSome = true →
      ∃ g ∈ st.generations, g.Holds (firstSequence n (st.done ++ st.queue.take k) i) w := by
  intro i w hi hw
  unfold firstSequence
  obtain hlt | hge := lt_or_ge i st.done.length
  · rw [getElem?_append_left hlt] at hi
    rw [take_append_of_le_length hlt.le]
    exact h.reported i w hi hw
  · rw [getElem?_append_right hge] at hi
    rw [take_append, take_of_length_le hge]
    exact hnew _ w hi hw

theorem returned_pop (k : Nat) :
    ∀ i ∈ st.returned, i < (st.done ++ st.queue.take k).length := by
  intro i hi
  rw [length_append]
  exact (h.returned i hi).trans_le (Nat.le_add_right _ _)

theorem queue_pop (k : Nat) :
    calls = (st.done ++ st.queue.take k) ++ st.queue.drop k := by
  rw [h.queue, append_assoc, List.take_append_drop]

theorem skip {force allowDelay : Bool} {w : Writer K V}
    {rest : List (Writer K V)} (hphase : st.phase = .makingRoom force allowDelay)
    (hqueue : st.queue = w :: rest) (hbatch : w.batch = none) : Inv n calls (st.pop 1) := by
  have hp := h.phase
  have hc := h.current
  rw [hphase] at hp hc
  have htake : st.queue.take 1 = [w] := by rw [hqueue]; rfl
  have hops : writtenOps (st.done ++ st.queue.take 1) = writtenOps st.done := by
    rw [htake, writtenOps_append, writtenOps_cons, Writer.ops, hbatch]
    simp
  refine { h with queue := h.queue_pop 1, returned := h.returned_pop 1, last := ?_,
                  phase := hp.1, current := ?_, reported := h.reported_pop ?_ }
  · rw [show (st.pop 1).done = st.done ++ st.queue.take 1 from rfl, hops]
    exact h.last
  · rw [show (st.pop 1).done = st.done ++ st.queue.take 1 from rfl, hops]
    exact hc
  · grind

theorem finish {m : Nat} (hphase : st.phase = .inserting g b m []) :
    Inv n calls (st.finishGroup g b) := by
  obtain ⟨ops, hops, hlog, hmem⟩ := h.current
  have hp := h.phase
  rw [hphase] at hp hlog hmem
  obtain ⟨hleads, ⟨records, hrecords⟩, hsync, ins, hins, hm⟩ := hp
  rw [append_nil] at hins
  have hbops : b.ops = g.ops := by rw [hleads.batch]
  have hbtake : b.ops = writtenOps (st.queue.take g.writers) := hbops.trans hleads.heads.ops
  have hinserted : (Phase.inserting g b m []).inserted = b.ops := by
    simp [Phase.inserted, hins, hm]
  rw [hinserted] at hmem
  have hseq := h.sequence_eq hleads hops
  refine { h with queue := h.queue_pop _, returned := h.returned_pop _, last := ?_, phase := ?_,
                  current := ⟨ops ++ b.ops, ?_, ?_, ?_⟩, reported := h.reported_pop ?_ }
  · change st.lastSequence + b.ops.length = n + (writtenOps (st.done ++ st.queue.take _)).length
    rw [h.last, writtenOps_append, length_append, hbtake, Nat.add_assoc]
  · change (if g.merged then [] else st.tmpBatch) = []
    rw [hleads.tmpBatch]
    split_ifs <;> rfl
  · change _ = writtenOps (st.done ++ st.queue.take _)
    rw [← append_assoc, writtenOps_append, ← hbtake, ← hops]
    rfl
  · change st.log.ops = (ops ++ b.ops) ++ []
    rw [append_nil]
    exact hlog
  · change st.log.mem =
      memOf (n + 1 + (st.closed.flatMap Generation.ops).length) ((ops ++ b.ops) ++ [])
    rw [append_nil]
    exact hmem
  · intro j w hj hw
    refine ⟨st.log, mem_append_right _ (mem_singleton_self _), records.length, b,
      writtenOps ((st.queue.take g.writers).take j),
      writtenOps ((st.queue.take g.writers).drop (j + 1)), ?_, ?_, ?_, ?_, ?_⟩
    · rw [hrecords]
      simp
    · rw [hbtake]
      exact writtenOps_getElem hj
    · rw [writtenOps_append, length_append, hleads.batch, h.last]
      dsimp only
      omega
    · -- who asks for a sync has a leader who did
      intro hws
      have hne : st.queue ≠ [] :=
        ne_nil_of_length_pos (hleads.heads.pos.trans_le hleads.heads.le)
      obtain ⟨first, hfirst⟩ : ∃ first, st.queue.head? = some first :=
        ⟨_, head?_eq_some_head hne⟩
      have hsynced := hsync first hfirst
        (hleads.heads.sync w (mem_of_getElem? hj) hws first hfirst)
      rw [hsynced, hrecords]
      simp
    · intro e he
      rw [hmem, mem_memOf, entriesFrom_append, mem_append, ← hseq, hbtake,
        writtenOps_getElem hj, entriesFrom_append, entriesFrom_append]
      have hstart : n + 1 + (writtenOps (st.done ++ (st.queue.take g.writers).take j)).length =
          b.sequence + (writtenOps ((st.queue.take g.writers).take j)).length := by
        rw [writtenOps_append, length_append, hleads.batch, h.last]
        dsimp only
        omega
      rw [hstart] at he
      simp [he]

theorem leave {i : Nat} (hdone : i < st.done.length)
    (hnew : i ∉ st.returned) : Inv n calls { st with returned := st.returned ++ [i] } := by
  refine { h with nodup := ?_, returned := ?_, phase := h.phase.congr rfl rfl rfl rfl }
  · grind [nodup_append, h.nodup, nodup_singleton, mem_singleton]
  · intro j hj
    obtain hj | hj := mem_append.mp hj
    · exact h.returned j hj
    · rw [mem_singleton.mp hj]
      exact hdone

theorem installFlush (levelZero : Nat) :
    Inv n calls { st with imm := false, flushing := none, levelZero := levelZero } := by
  refine { h with flushing := ?_, imm := ?_, phase := h.phase.congr rfl rfl rfl rfl }
  · intro hf
    cases hf
  · intro hi
    cases hi

theorem generation_mem {before after : List (Generation K V)}
    {g : Generation K V} (hg : st.generations = before ++ g :: after) :
    ∃ ops, g.mem = memOf (n + 1 + (before.flatMap Generation.ops).length) ops ∧
      before.flatMap Generation.ops ++ ops <+: writtenOps st.done ++ st.phase.inserted := by
  obtain ⟨ops, hops, -, hmem⟩ := h.current
  unfold generations at hg
  obtain rfl | ⟨rest, x, rfl⟩ := eq_nil_or_concat after
  · obtain ⟨hclosed, hlog⟩ := append_inj' hg rfl
    obtain rfl : st.log = g := singleton_inj.mp hlog
    refine ⟨ops ++ st.phase.inserted, ?_, ?_⟩
    · rw [← hclosed]
      exact hmem
    · rw [← hclosed, ← append_assoc, hops]
  · rw [concat_eq_append, ← cons_append, ← append_assoc] at hg
    obtain ⟨hclosed, -⟩ := append_inj' hg rfl
    have hfiled := h.filed
    rw [hclosed, filed_append] at hfiled
    refine ⟨g.ops, hfiled.2.2.1, ?_⟩
    refine List.IsPrefix.trans ?_ (prefix_append _ _)
    rw [← hops, hclosed, flatMap_append, flatMap_cons, append_assoc,
      append_assoc]
    exact (prefix_append_right_inj _).mpr (prefix_append _ _)

end

end Inv

theorem Writing.inv {env : WriteEnv K V} {n : Nat} {calls : List (Writer K V)}
    {st st' : WriteQueue K V} (hstep : Writing env st st') (h : Inv n calls st) :
    Inv n calls st' := by
  have hgrow := hstep.grows
  cases hstep with
  | lead hphase hqueue => exact h.lead hphase hqueue _ _
  | delay hphase => exact h.delay hphase _ _
  | switch hphase => exact h.switch hphase
  | skip hphase _ hqueue hbatch => exact h.skip hphase hqueue hbatch
  | group hphase _ hqueue hbatch => exact h.group env.byteSize hphase hqueue hbatch
  | append hphase => exact h.append hphase
  | sync hphase hqueue => exact h.sync hphase hqueue hgrow
  | insert hphase => exact h.insert hphase
  | finish hphase => exact h.finish hphase
  | leave hdone hnew => exact h.leave hdone hnew

theorem Background.inv {n : Nat} {calls : List (Writer K V)} {st st' : WriteQueue K V}
    (hstep : Background st st') (h : Inv n calls st) : Inv n calls st' := by
  cases hstep with
  | startFlush himm =>
    exact { h with flushing := fun _ => himm, phase := h.phase.congr rfl rfl rfl rfl }
  | installFlush => exact h.installFlush _
  | compact => exact { h with phase := h.phase.congr rfl rfl rfl rfl }

theorem Trace.inv {env : WriteEnv K V} {n logNumber levelZero : Nat} {events : List (Event K V)}
    {st : WriteQueue K V} (h : Trace (init n logNumber levelZero) (Step env) events st) :
    Inv n (enqueued events) st := by
  refine h.invariant (I := fun events st => Inv n (enqueued events) st) (.init ..) ?_
  intro events e st st' _ ih hstep
  cases hstep with
  | enqueue w =>
    have hcalls : enqueued (events ++ [.enqueue w]) = enqueued events ++ [w] := by
      simp [enqueued]
    rw [hcalls]
    exact ih.enqueue w
  | work hstep =>
    have hcalls : enqueued (events ++ [.work]) = enqueued events := by
      simp [enqueued]
    rw [hcalls]
    obtain hstep | hstep := hstep
    · exact hstep.inv ih
    · exact hstep.inv ih

/-! ## Progress -/

def leaderWork (env : WriteEnv K V) (st : WriteQueue K V) : Phase K V → Nat
  | .waiting => (writtenOps st.queue).length + 10
  | .makingRoom force allowDelay => (writtenOps st.queue).length + 4 +
    (if force || env.full st.log.mem then 4 else 0) + (if allowDelay then 1 else 0)
  | .appending g b => (writtenOps (st.queue.drop g.writers)).length + b.ops.length + 3
  | .syncing g b => (writtenOps (st.queue.drop g.writers)).length + b.ops.length + 2
  | .inserting g _ _ rest => (writtenOps (st.queue.drop g.writers)).length + rest.length + 1

def backgroundWork (st : WriteQueue K V) : Nat :=
  st.levelZero + if st.imm then (if st.flushing.isSome then 2 else 3) else 0

/-- A bound for the steps that the threads can take before a new call comes in. -/
def work (env : WriteEnv K V) (st : WriteQueue K V) : Nat :=
  st.leaderWork env st.phase + 11 * st.queue.length + (st.done.length - st.returned.length) +
    st.backgroundWork

omit [LinearOrder K] [Inhabited V] in
theorem makeRoomForWrite_cases (env : WriteEnv K V) (st : WriteQueue K V) (force allowDelay : Bool) :
    match st.makeRoomForWrite env force allowDelay with
    | .delay => allowDelay = true
    | .enough => (force || env.full st.log.mem) = false
    | .wait => st.imm = true ∨ kL0_StopWritesTrigger ≤ st.levelZero
    | .switch => (force || env.full st.log.mem) = true ∧ st.imm = false := by
  unfold makeRoomForWrite
  cases force <;> split_ifs <;> simp_all

theorem Inv.returned_le {n : Nat} {calls : List (Writer K V)} {st : WriteQueue K V}
    (h : Inv n calls st) : st.returned.length ≤ st.done.length := by
  have hsub : st.returned ⊆ List.range st.done.length := by
    intro i hi
    exact mem_range.mpr (h.returned i hi)
  simpa using (h.nodup.subperm hsub).length_le

section

variable {env : WriteEnv K V} {n : Nat} {calls : List (Writer K V)} {st st' : WriteQueue K V}

theorem pop_work_lt (h : Inv n calls st) {k : Nat} (hk : 0 < k)
    (hle : k ≤ st.queue.length) (hphase : st'.phase = .waiting)
    (hqueue : st'.queue = st.queue.drop k) (hdone : st'.done = st.done ++ st.queue.take k)
    (hreturned : st'.returned = st.returned)
    (hback : st'.backgroundWork = st.backgroundWork)
    (hleader : (writtenOps (st.queue.drop k)).length + 1 ≤ st.leaderWork env st.phase) :
    st'.work env < st.work env := by
  have hret := h.returned_le
  unfold work
  rw [hphase, hback, hreturned, hdone, leaderWork, hqueue, length_append, length_drop,
    length_take, Nat.min_eq_left hle]
  omega

theorem Writing.work_lt (hstep : Writing env st st') (h : Inv n calls st) :
    st'.work env < st.work env := by
  have hp := h.phase
  cases hstep with
  | @lead w rest hphase hqueue =>
    unfold work
    rw [hphase]
    dsimp only [leaderWork, backgroundWork]
    split_ifs <;> omega
  | @delay force allowDelay hphase hroom =>
    have hcases := makeRoomForWrite_cases env st force allowDelay
    rw [hroom] at hcases
    dsimp only at hcases
    unfold work
    rw [hphase, hcases]
    dsimp only [leaderWork, backgroundWork]
    simp
  | @switch force allowDelay hphase hroom =>
    have hcases := makeRoomForWrite_cases env st force allowDelay
    rw [hroom] at hcases
    obtain ⟨hfull, himm⟩ := hcases
    unfold work
    rw [hphase]
    dsimp only [leaderWork, backgroundWork, switchMemTable, Generation.new]
    rw [hfull, himm, env.full_nil]
    have hflush : st.flushing.isSome = false := by
      by_contra hne
      have := h.flushing (eq_true_of_ne_false hne)
      rw [himm] at this
      cases this
    rw [hflush]
    simp
    omega
  | @skip force allowDelay w rest hphase hroom hqueue hbatch =>
    refine pop_work_lt h Nat.one_pos (by rw [hqueue]; simp) rfl rfl rfl rfl rfl ?_
    rw [hphase, hqueue]
    dsimp only [leaderWork]
    rw [hqueue]
    simp
    omega
  | @group force allowDelay w rest ops hphase hroom hqueue hbatch =>
    rw [hphase] at hp
    have hheads := buildBatchGroup_spec env.byteSize hbatch rest
    rw [← hqueue] at hheads
    rw [hp.1]
    generalize buildBatchGroup env.byteSize [] ops w.sync rest = g at hheads
    have hlen : (writtenOps st.queue).length =
        g.ops.length + (writtenOps (st.queue.drop g.writers)).length := by
      conv_lhs => rw [← List.take_append_drop g.writers st.queue]
      rw [writtenOps_append, length_append, ← hheads.ops]
    unfold work
    rw [hphase]
    dsimp only [leaderWork, backgroundWork, startGroup]
    omega
  | append hphase =>
    unfold work
    rw [hphase]
    dsimp only [leaderWork, backgroundWork, addRecord]
    omega
  | sync hphase hqueue =>
    unfold work
    rw [hphase]
    dsimp only [leaderWork, backgroundWork, syncLog]
    omega
  | insert hphase =>
    unfold work
    rw [hphase]
    dsimp only [leaderWork, backgroundWork, insertOp]
    rw [length_cons]
    omega
  | finish hphase =>
    rw [hphase] at hp
    refine pop_work_lt h hp.1.heads.pos hp.1.heads.le rfl rfl rfl rfl rfl ?_
    rw [hphase]
    exact le_refl _
  | @leave i hdone hnew =>
    have hlt : st.returned.length < st.done.length := by
      have hle := (Inv.leave h hdone hnew).returned_le
      rw [length_append, length_singleton] at hle
      exact hle
    unfold work
    have hleader : ∀ p, leaderWork env { st with returned := st.returned ++ [i] } p =
        leaderWork env st p := fun p => by cases p <;> rfl
    rw [hleader]
    dsimp only [backgroundWork]
    rw [length_append, length_singleton]
    omega

theorem Background.work_lt (hstep : Background st st') (h : Inv n calls st) :
    st'.work env < st.work env := by
  have hleader : ∀ (imm : Bool) (flushing : Option Nat) (levelZero next : Nat) (p : Phase K V),
      leaderWork env { st with imm := imm, flushing := flushing, levelZero := levelZero,
                               nextFileNumber := next } p = leaderWork env st p := by
    intro imm flushing levelZero next p
    cases p <;> rfl
  unfold work
  cases hstep with
  | startFlush himm hidle =>
    rw [hleader]
    dsimp only [backgroundWork]
    rw [himm, hidle]
    simp
  | installFlush hflushing hn =>
    have himm := h.flushing (by rw [hflushing]; rfl)
    rw [hleader]
    dsimp only [backgroundWork]
    rw [himm, hflushing]
    simp
    omega
  | compact hidle hn =>
    rw [hleader]
    dsimp only [backgroundWork]
    omega

theorem Internal.inv (hstep : Internal env st st') (h : Inv n calls st) :
    Inv n calls st' := by
  obtain hstep | hstep := hstep
  · exact hstep.inv h
  · exact hstep.inv h

theorem Internal.work_lt (hstep : Internal env st st') (h : Inv n calls st) :
    st'.work env < st.work env := by
  obtain hstep | hstep := hstep
  · exact hstep.work_lt h
  · exact hstep.work_lt h

theorem Inv.run_le (h : Inv n calls st) {run : List Unit}
    (hrun : Trace st (fun a _ b => Internal env a b) run st') : run.length ≤ st.work env := by
  have hall : Inv n calls st' ∧ run.length + st'.work env ≤ st.work env := by
    refine hrun.invariant (I := fun run st' => Inv n calls st' ∧
      run.length + st'.work env ≤ st.work env) ⟨h, by simp⟩ ?_
    intro run _ a b _ ⟨ha, hle⟩ hstep
    have hlt := Internal.work_lt hstep ha
    refine ⟨Internal.inv hstep ha, ?_⟩
    rw [length_append, length_singleton]
    omega
  omega

end

theorem Inv.exists_internal {n : Nat} {calls : List (Writer K V)} {st : WriteQueue K V}
    (h : Inv n calls st) (env : WriteEnv K V) {i : Nat} (hi : i < calls.length)
    (hnew : i ∉ st.returned) : ∃ st', Internal env st st' := by
  by_cases hdone : i < st.done.length
  · exact ⟨_, .inl (.leave hdone hnew)⟩
  · have hlen : calls.length = st.done.length + st.queue.length := by
      rw [h.queue, length_append]
    obtain ⟨w, rest, hqueue⟩ : ∃ w rest, st.queue = w :: rest := by
      cases hq : st.queue with
      | nil =>
        rw [hq, length_nil] at hlen
        omega
      | cons w rest => exact ⟨w, rest, rfl⟩
    cases hphase : st.phase with
    | waiting => exact ⟨_, .inl (.lead hphase hqueue)⟩
    | appending g b => exact ⟨_, .inl (.append hphase)⟩
    | syncing g b => exact ⟨_, .inl (.sync hphase hqueue)⟩
    | inserting g b m ops =>
      cases ops with
      | nil => exact ⟨_, .inl (.finish hphase)⟩
      | cons op ops => exact ⟨_, .inl (.insert hphase)⟩
    | makingRoom force allowDelay =>
      have hcases := makeRoomForWrite_cases env st force allowDelay
      cases hroom : st.makeRoomForWrite env force allowDelay with
      | delay => exact ⟨_, .inl (.delay hphase hroom)⟩
      | switch => exact ⟨_, .inl (.switch hphase hroom)⟩
      | enough =>
        cases hbatch : w.batch with
        | none => exact ⟨_, .inl (.skip hphase hroom hqueue hbatch)⟩
        | some ops => exact ⟨_, .inl (.group hphase hroom hqueue hbatch)⟩
      | wait =>
        -- the background thread has something to do
        rw [hroom] at hcases
        cases hflush : st.flushing with
        | some number => exact ⟨_, .inr (.installFlush hflush (Nat.le_succ _))⟩
        | none =>
          obtain himm | hstop := hcases
          · exact ⟨_, .inr (.startFlush himm hflush)⟩
          · have hpos : 0 < st.levelZero := lt_of_lt_of_le (by decide) hstop
            exact ⟨_, .inr (.compact hflush hpos)⟩

end WriteQueue

/-! ## Group commit -/

theorem memOf_perm (n : Nat) (ops : List (Op K V)) : (memOf n ops).Perm (entriesFrom n ops) := by
  refine (perm_ext_iff_of_nodup ?_ ?_).mpr fun e => mem_memOf
  · exact (memOf_strict n ops).imp fun hlt heq => absurd (congrArg Entry.key heq) hlt.ne
  · exact (entriesFrom_pairwise n ops).imp fun hne heq => hne (congrArg Entry.sequence heq)

omit [LinearOrder K] [Inhabited V] in
theorem flatMap_records_ops (gs : List (Generation K V)) :
    (gs.flatMap fun g => g.file.records).flatMap WriteBatch.ops = gs.flatMap Generation.ops := by
  rw [flatMap_assoc]
  rfl

namespace Filed

variable {n : Nat} {gs : List (Generation K V)}

theorem numbered (h : Filed n gs) : Numbered n (gs.flatMap fun g => g.file.records) := by
  induction gs generalizing n with
  | nil => trivial
  | cons g gs ih => exact numbered_append.mpr ⟨h.1, ih h.2.2⟩

theorem mem_perm (h : Filed n gs) :
    (gs.flatMap Generation.mem).Perm (entriesFrom n (gs.flatMap Generation.ops)) := by
  induction gs generalizing n with
  | nil => exact .refl _
  | cons g gs ih =>
    obtain ⟨-, hmem, hrest⟩ := h
    rw [flatMap_cons, flatMap_cons, entriesFrom_append, hmem]
    exact (memOf_perm n g.ops).append (ih hrest)

end Filed

namespace WriteQueue

namespace Inv

variable {n : Nat} {calls : List (Writer K V)} {st : WriteQueue K V}

theorem records_numbered (h : Inv n calls st) : Numbered (n + 1) st.records := by
  unfold records generations
  rw [flatMap_append, flatMap_singleton]
  refine numbered_append.mpr ⟨h.filed.numbered, ?_⟩
  rw [flatMap_records_ops]
  exact h.numbered

theorem records_ops (h : Inv n calls st) :
    st.records.flatMap WriteBatch.ops = writtenOps st.done ++ st.phase.appended := by
  obtain ⟨ops, hops, hlog, -⟩ := h.current
  unfold records generations
  rw [flatMap_records_ops, flatMap_append, flatMap_singleton, hlog, ← append_assoc,
    hops]

theorem memEntries_perm (h : Inv n calls st) :
    st.memEntries.Perm (entriesFrom (n + 1) (writtenOps st.done ++ st.phase.inserted)) := by
  obtain ⟨ops, hops, -, hmem⟩ := h.current
  unfold memEntries generations
  rw [flatMap_append, flatMap_singleton, hmem, ← hops, append_assoc,
    entriesFrom_append]
  exact h.filed.mem_perm.append (memOf_perm _ _)

end Inv

omit [LinearOrder K] [Inhabited V] in
theorem firstSequence_le (n : Nat) {writers : List (Writer K V)} {i j : Nat} {w : Writer K V}
    (hw : writers[i]? = some w) (hij : i < j) :
    firstSequence n writers i + w.ops.length ≤ firstSequence n writers j := by
  have htake : (writers.take j)[i]? = some w := by rw [getElem?_take_of_lt hij, hw]
  unfold firstSequence
  rw [writtenOps_getElem htake, take_take, Nat.min_eq_left hij.le, length_append,
    length_append]
  omega

/-- **Group commit.** In every run of concurrent calls of `Write`:
    * the writers reported done and those in the queue are the calls, in their order, and a call
      returns once, after it was reported done;
    * the records of the logs are numbered without gaps, and have the operations of the reported
      writers, in their order, and those of a group whose record was appended;
    * the memtables have the same operations under the same numbers, each once;
    * the batch of a reported writer lies in one record and in the memtable of its log, under
      numbers of its own, and a sync it asked for has covered the record;
    * later writers have larger numbers;
    * without new calls the threads take at most `work` steps, and as long as a call has not
      returned some thread can take one. -/
theorem group_commit (env : WriteEnv K V) (n logNumber levelZero : Nat)
    {events : List (Event K V)} {st : WriteQueue K V}
    (h : Trace (init n logNumber levelZero) (Step env) events st) :
    (enqueued events = st.done ++ st.queue ∧ st.returned.Nodup ∧
      ∀ i ∈ st.returned, i < st.done.length) ∧
    (Numbered (n + 1) st.records ∧
      st.records.flatMap WriteBatch.ops = writtenOps st.done ++ st.phase.appended) ∧
    st.memEntries.Perm (entriesFrom (n + 1) (writtenOps st.done ++ st.phase.inserted)) ∧
    (∀ i w, st.done[i]? = some w → w.batch.isSome = true →
      ∃ g ∈ st.generations, g.Holds (firstSequence n st.done i) w) ∧
    (∀ i j w, st.done[i]? = some w → i < j →
      firstSequence n st.done i + w.ops.length ≤ firstSequence n st.done j) ∧
    (∀ run st', Trace st (fun a (_ : Unit) b => Internal env a b) run st' →
      run.length ≤ st.work env) ∧
    ∀ i < (enqueued events).length, i ∉ st.returned → ∃ st', Internal env st st' := by
  have hinv := Trace.inv h
  refine ⟨⟨hinv.queue, hinv.nodup, hinv.returned⟩, ⟨hinv.records_numbered, hinv.records_ops⟩,
    hinv.memEntries_perm, hinv.reported, fun i j w hw hij => firstSequence_le n hw hij,
    fun run st' hrun => hinv.run_le hrun, fun i hi hnew => hinv.exists_internal env hi hnew⟩

/-! Two calls: the second one asks for a sync that the first one does not ask for, so each of
them makes a group of its own. -/

def exampleEnv : WriteEnv Nat Nat := ⟨fun ops => 20 * ops.length, fun mem => decide (2 < mem.length), rfl⟩

def firstWriter : Writer Nat Nat := ⟨some [.put 1 10, .delete 2], false⟩

def secondWriter : Writer Nat Nat := ⟨some [.put 2 20], true⟩

theorem twoWriters_run : ∃ (events : List (Event Nat Nat)) (st : WriteQueue Nat Nat),
    Trace (init 5 3 0) (Step exampleEnv) events st ∧
    enqueued events = [firstWriter, secondWriter] ∧ st.done = [firstWriter, secondWriter] ∧
    st.records = [⟨6, [.put 1 10, .delete 2]⟩, ⟨8, [.put 2 20]⟩] := by
  have s0 : Trace (init 5 3 0) (Step exampleEnv) [] (init 5 3 0) := .start
  have s1 := (s0.step (.enqueue firstWriter)).step (.work (.inl (.lead rfl rfl)))
  have s2 := s1.step (.work (.inl (.group rfl (by decide) rfl rfl)))
  have s3 := (s2.step (.work (.inl (.append rfl)))).step (.enqueue secondWriter)
  have s4 := (s3.step (.work (.inl (.sync rfl rfl)))).step (.work (.inl (.insert rfl)))
  have s5 := (s4.step (.work (.inl (.insert rfl)))).step (.work (.inl (.finish rfl)))
  have s6 := (s5.step (.work (.inl (.lead rfl rfl)))).step
    (.work (.inl (.group rfl (by decide) rfl rfl)))
  have s7 := (s6.step (.work (.inl (.append rfl)))).step (.work (.inl (.sync rfl rfl)))
  have s8 := (s7.step (.work (.inl (.insert rfl)))).step (.work (.inl (.finish rfl)))
  exact ⟨_, _, s8, rfl, rfl, rfl⟩

theorem group_commit_twoWriters : ∃ (events : List (Event Nat Nat)) (st : WriteQueue Nat Nat),
    enqueued events = [firstWriter, secondWriter] ∧ st.done = [firstWriter, secondWriter] ∧
    enqueued events = st.done ++ st.queue ∧
    ∃ g ∈ st.generations, g.Holds (firstSequence 5 st.done 1) secondWriter := by
  obtain ⟨events, st, hrun, hcalls, hdone, -⟩ := twoWriters_run
  obtain ⟨⟨hqueue, -⟩, -, -, hreported, -⟩ := group_commit exampleEnv 5 3 0 hrun
  exact ⟨events, st, hcalls, hdone, hqueue, hreported 1 secondWriter (by rw [hdone]; rfl) rfl⟩

end WriteQueue

end LevelDB
