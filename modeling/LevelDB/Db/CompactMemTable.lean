/-
  Flushing on demand (`Write` with a null batch and `TEST_CompactMemTable`, `db/db_impl.cc`), and
  flushes that fail.

  `BackgroundCompaction` drops the immutable memtable also when its table could not be built or
  installed, and `TEST_CompactMemTable` takes a dropped memtable for a flushed one.

  A null batch forces a new memtable only if it leads its group, but `BuildBatchGroup` takes null
  batches into the groups of others.
-/
import LevelDB.Db.Isolation

namespace LevelDB

open List SortedList Transition

variable {K V : Type} [LinearOrder K] [Inhabited V] [Inhabited K]

/-! ## Flushes that fail -/

/-- How the flush of a memtable ends: `BuildTable` or `LogAndApply` may return an error. -/
inductive FlushOutcome where
  | ok
  | buildError (st : Status)
  | applyError (st : Status)

namespace Shared

/-- `BackgroundCompaction` from `BuildTable` on, with the error it records. After an error of
    `LogAndApply` the table is there, but in no version. -/
def backgroundFlush (cfg : Config K V) (st : Shared K V) (number : Nat) (g : Generation K V) :
    FlushOutcome → Shared K V × Option Status
  | .ok => (st.installFlush cfg number g, none)
  | .buildError e =>
    ({ st with write := { st.write with imm := false, flushing := none } }, some e)
  | .applyError e =>
    ({ st with write := { st.write with imm := false, flushing := none }
               store := Function.update st.store number (cfg.writeTable g.mem) }, some e)

/-- `TEST_CompactMemTable` after its `Write` has returned, whenever it looks at `imm_` and
    `bg_error_`: `none` to wait on. -/
def testCompactMemTable (st : Shared K V) (bgError : Option Status) : Option (Except Status Unit) :=
  if st.write.imm then bgError.map .error else some (.ok ())

variable {S : Set (Entry K V)} {H : List (Op K V)} {calls : List (Writer K V)} {st : Shared K V}
  {cfg : Config K V} {env : WriteEnv K V} {number : Nat} {g : Generation K V}

omit [Inhabited V] [Inhabited K] in
theorem memtable_capture (st : Shared K V) : st.memtable st.capture.mem = st.write.log.mem := by
  unfold memtable
  rw [show st.capture.mem = st.write.closed.length from rfl,
    WriteQueue.Grows.log_getElem st.write]
  rfl

omit [Inhabited K] in
theorem Live.mem_entries (h : Live S H calls st) {e : Entry K V} :
    e ∈ st.capture.entries st ↔ e ∈ st.write.log.mem ∨ e ∈ S ∨
      e ∈ entriesFrom (H.length + 1) (st.write.closed.flatMap Generation.ops) := by
  obtain ⟨c, hlayers, -⟩ := h.layers (.refl st) h
  change e ∈ st.memtable st.capture.mem ∨ (∃ m ∈ st.capture.imm.map st.memtable, e ∈ m) ∨
    e ∈ st.version.entries st.store ↔ _
  rw [hlayers.mem_imm, hlayers.entries, memtable_capture, ← flushed_append_immOps,
    entriesFrom_append, mem_append]
  tauto

omit [Inhabited K] in
theorem Live.get_iff (h : Live S H calls st) (k : K) (s : Nat) (val : V) :
    st.capture.get st k s = .ok (some val) ↔ Entry.Visible (st.capture.entries st) k s val := by
  obtain ⟨c, hlayers, -⟩ := h.layers (.refl st) h
  exact (dbGet_spec hlayers.readable k s).1 val

theorem installFlush_get (h : Live S H calls st) (hflushing : st.write.flushing = some number)
    (hlast : st.write.closed.getLast? = some g) (k : K) (s : Nat) (val : V) :
    (st.installFlush cfg number g).capture.get (st.installFlush cfg number g) k s =
      .ok (some val) ↔ st.capture.get st k s = .ok (some val) := by
  have h' : Live S H calls (st.installFlush cfg number g) := h.installFlush hflushing hlast
  rw [h'.get_iff, h.get_iff]
  refine Entry.visible_congr (fun e _ _ => ?_) val
  rw [h'.mem_entries, h.mem_entries]
  rfl

omit [Inhabited K] in
theorem failed_flush_get (h : Live S H calls st) {store : TableStore K V}
    (hstore : ∀ l, ∀ f ∈ st.version.files l, store f.number = st.store f.number) {k : K} {s : Nat}
    {val : V} (hget : st.capture.get st k s = .ok (some val)) :
    dbGet st.write.log.mem none st.version store.cacheGet k s = .ok (some val) ↔
      (∃ e ∈ st.write.log.mem, e.userKey = k ∧ e.sequence ≤ s) ∨
        Entry.Visible (st.version.entries st.store) k s val := by
  obtain ⟨c, hlayers, -⟩ := h.layers (.refl st) h
  rw [memtable_capture] at hlayers
  have hread := hlayers.readable
  have hentries := Version.entries_congr hstore
  have hread' : Readable st.write.log.mem none st.version store :=
    hread.drop (h.holds.congr hstore).layered hentries
  obtain ⟨e, ⟨he, hek, hes, hmax⟩, hput⟩ := (h.get_iff k s val).mp hget
  rw [(dbGet_spec hread' k s).1 val]
  have hset : ∀ x, x ∈ dbEntries st.write.log.mem none st.version store ↔
      x ∈ st.write.log.mem ∨ x ∈ st.version.entries st.store := by
    intro x
    rw [← hentries]
    simp [dbEntries]
  by_cases hmem : ∃ x ∈ st.write.log.mem, x.userKey = k ∧ x.sequence ≤ s
  · refine ⟨fun _ => Or.inl hmem, fun _ => ?_⟩
    obtain ⟨x, hx, hxk, hxs⟩ := hmem
    -- the newest entry is in the memtable
    have hxe := Entry.sequence_le_of_tag_le (hmax x (Or.inl (by rw [memtable_capture]; exact hx))
      hxk hxs)
    have hem : e ∈ st.write.log.mem := by
      obtain he | ⟨m, hm, he⟩ | he := he
      · rw [memtable_capture] at he
        exact he
      · exact absurd ((hread.memNewer x hx).1 m hm e he) (not_lt.mpr hxe)
      · exact absurd ((hread.memNewer x hx).2 e he) (not_lt.mpr hxe)
    refine ⟨e, ⟨(hset e).mpr (Or.inl hem), hek, hes, fun y hy => hmax y ?_⟩, hput⟩
    obtain hy | hy := (hset y).mp hy
    · exact Or.inl (by rw [memtable_capture]; exact hy)
    · exact Or.inr (Or.inr hy)
  · rw [or_iff_right hmem]
    refine Entry.visible_congr (fun x hxk hxs => ?_) val
    rw [hset]
    exact or_iff_right fun hx => hmem ⟨x, hx, hxk, hxs⟩

/-- **Flush failures.** Whenever the flush of an immutable memtable ends, in any run: every value
    that could be read can still be read, and `TEST_CompactMemTable` does not report success for a
    failure, exactly when the flush does not fail. After a failure a value is still read exactly
    when the memtable has the key or the tables have the value too, and `TEST_CompactMemTable`
    reports success. -/
theorem flush_failure_iff {v : Version K} {store : TableStore K V} (hbase : Holds False v store H)
    (hfits : H.length ≤ kMaxSequenceNumber) {logNumber : Nat}
    (hnum : ∀ l, ∀ f ∈ v.files l, f.number < logNumber)
    {events : List (WriteQueue.Event K V)}
    (h : Trace (opened H.length logNumber v store) (Step cfg env) events st)
    (hflushing : st.write.flushing = some number) (hlast : st.write.closed.getLast? = some g)
    (outcome : FlushOutcome) :
    let r := st.backgroundFlush cfg number g outcome
    (((∀ k s val, st.capture.get st k s = .ok (some val) →
        r.1.capture.get r.1 k s = .ok (some val)) ∧
      (outcome ≠ .ok → r.1.testCompactMemTable r.2 ≠ some (.ok ()))) ↔ outcome = .ok) ∧
    (outcome ≠ .ok → r.1.testCompactMemTable r.2 = some (.ok ()) ∧
      ∀ k s val, st.capture.get st k s = .ok (some val) →
        (r.1.capture.get r.1 k s = .ok (some val) ↔
          (∃ e ∈ st.write.log.mem, e.userKey = k ∧ e.sequence ≤ s) ∨
            Entry.Visible (st.version.entries st.store) k s val)) := by
  intro r
  have hlive := ((Live.opened hbase hnum hfits).trace h).1
  have hfail : outcome ≠ .ok → r.1.testCompactMemTable r.2 = some (.ok ()) ∧
      ∀ k s val, st.capture.get st k s = .ok (some val) →
        (r.1.capture.get r.1 k s = .ok (some val) ↔
          (∃ e ∈ st.write.log.mem, e.userKey = k ∧ e.sequence ≤ s) ∨
            Entry.Visible (st.version.entries st.store) k s val) := by
    intro hne
    have hread : ∀ (w : WriteQueue K V) (store : TableStore K V), w.imm = false →
        w.generations = st.write.generations → w.closed = st.write.closed →
        (∀ l, ∀ f ∈ st.version.files l, store f.number = st.store f.number) →
        ∀ k s val, st.capture.get st k s = .ok (some val) →
        ((⟨w, st.version, store⟩ : Shared K V).capture.get ⟨w, st.version, store⟩ k s =
          .ok (some val) ↔ (∃ e ∈ st.write.log.mem, e.userKey = k ∧ e.sequence ≤ s) ∨
            Entry.Visible (st.version.entries st.store) k s val) := by
      intro w store himm hgen hclosed hstore k s val hget
      rw [← failed_flush_get hlive hstore hget]
      have hmem : (⟨w, st.version, store⟩ : Shared K V).memtable w.closed.length =
          st.write.log.mem := by
        rw [← memtable_capture]
        unfold memtable
        rw [hgen, hclosed]
        rfl
      unfold Capture.get capture
      dsimp only
      rw [himm, hmem]
      rfl
    have hbound : st.write.tableBound = number := by
      unfold WriteQueue.tableBound
      rw [hflushing]
      rfl
    cases outcome with
    | ok => exact absurd rfl hne
    | buildError e => exact ⟨rfl, hread _ _ rfl rfl rfl fun _ _ _ => rfl⟩
    | applyError e =>
      refine ⟨rfl, hread _ _ rfl rfl rfl fun l f hf => ?_⟩
      have hlt := hlive.numbers l f hf
      rw [hbound] at hlt
      exact Function.update_of_ne hlt.ne _ _
  refine ⟨⟨?_, ?_⟩, hfail⟩
  · intro ⟨_, htest⟩
    by_contra hne
    exact htest hne (hfail hne).1
  · intro hok
    subst hok
    refine ⟨?_, fun hne => absurd rfl hne⟩
    intro k s val hget
    exact (installFlush_get hlive hflushing hlast k s val).mpr hget

/-! One batch, and a null batch that starts a flush of it. -/

def nullWriter : Writer Nat Nat := ⟨none, false⟩

theorem flushing_run : ∃ (events : List (WriteQueue.Event Nat Nat)) (st : Shared Nat Nat)
    (number : Nat) (g : Generation Nat Nat),
    Trace exampleOpened (Step exampleConfig WriteQueue.exampleEnv) events st ∧
    st.write.flushing = some number ∧ st.write.closed.getLast? = some g ∧
    st.capture.get st 1 2 = .ok (some 10) ∧ st.write.log.mem = [] ∧ st.version = Version.empty := by
  obtain ⟨before, s0⟩ := exampleWritten_run
  have s1 := (s0.step (.enqueue nullWriter)).step (.writing (.lead rfl rfl) (by decide))
  have s2 := (s1.step (.writing (.switch rfl (by decide)) (by decide))).step
    (.writing (.skip rfl (by decide) rfl rfl) (by decide))
  have s3 := s2.step (.startFlush rfl rfl)
  exact ⟨_, _, _, _, s3, rfl, rfl, by decide +kernel, rfl, rfl⟩

theorem flush_failure_iff_example : ∃ (st : Shared Nat Nat) (number : Nat) (g : Generation Nat Nat),
    st.write.flushing = some number ∧ st.capture.get st 1 2 = .ok (some 10) ∧
    (st.installFlush exampleConfig number g).capture.get (st.installFlush exampleConfig number g)
      1 2 = .ok (some 10) := by
  obtain ⟨events, st, number, g, hrun, hflushing, hlast, hget, -⟩ := flushing_run
  have hiff := (flush_failure_iff (H := []) (.empty _) (Nat.zero_le _)
    (fun l f hf => absurd hf not_mem_nil) hrun hflushing hlast .ok).1
  exact ⟨st, number, g, hflushing, hget, (hiff.mpr rfl).1 1 2 10 hget⟩

/-- `BuildTable` fails, key 1 is gone, and `TEST_CompactMemTable` reports success. -/
theorem failed_flush_hides : ∃ (events : List (WriteQueue.Event Nat Nat)) (st : Shared Nat Nat)
    (number : Nat) (g : Generation Nat Nat),
    Trace exampleOpened (Step exampleConfig WriteQueue.exampleEnv) events st ∧
    st.write.flushing = some number ∧ st.write.closed.getLast? = some g ∧
    st.capture.get st 1 2 = .ok (some 10) ∧ ∀ e,
      let r := st.backgroundFlush exampleConfig number g (.buildError e)
      (∃ e', r.1.capture.get r.1 1 2 = .error e' ∧ e'.isNotFound = true) ∧
      r.1.testCompactMemTable r.2 = some (.ok ()) := by
  obtain ⟨events, st, number, g, hrun, hflushing, hlast, hget, hmem, hversion⟩ := flushing_run
  refine ⟨events, st, number, g, hrun, hflushing, hlast, hget, fun e => ⟨?_, rfl⟩⟩
  have hempty : Holds False Version.empty st.store [] := .empty _
  have hread := hempty.layers.readable
  have hnone : ∀ val, Entry.Visible (dbEntries [] none Version.empty st.store) 1 2 val ↔
      (none : Option Nat) = some val := by
    intro val
    constructor
    · intro ⟨x, ⟨hx, _⟩, _⟩
      obtain hx | ⟨m, hm, -⟩ | ⟨l, f, hf, -⟩ := hx
      · cases hx
      · cases hm
      · cases hf
    · intro h
      cases h
  have hreports := hread.dbGet_reports hnone
  rw [← hmem, ← hversion, ← memtable_capture] at hreports
  exact hreports

/-! ## Forced switches -/

end Shared

/-- The leader is in `MakeRoomForWrite` and cannot go on without a new memtable: it has a null
    batch, or the memtable is full. -/
def WriteQueue.NeedsSwitch (env : WriteEnv K V) (st : WriteQueue K V) : Prop :=
  ∃ force allowDelay, st.phase = .makingRoom force allowDelay ∧
    (force || env.full st.log.mem) = true

namespace WriteQueue

variable {env : WriteEnv K V} {st st' : WriteQueue K V}

omit [Inhabited K] in
theorem Writing.closed_eq (h : Writing env st st') :
    st'.closed = st.closed ∨ st.NeedsSwitch env ∧ st'.closed = st.closed ++ [st.log] := by
  cases h with
  | @switch force allowDelay hphase hroom =>
    have hcases := makeRoomForWrite_cases env st force allowDelay
    rw [hroom] at hcases
    exact Or.inr ⟨⟨force, allowDelay, hphase, hcases.1⟩, rfl⟩
  | _ => exact Or.inl rfl

omit [Inhabited K] in
theorem Writing.switch_first (h : Writing env st st') (hneeds : st.NeedsSwitch env) :
    st.closed.length < st'.closed.length ∨
      st'.NeedsSwitch env ∧ st'.done = st.done ∧ st'.closed = st.closed := by
  obtain ⟨force, allowDelay, hphase, hneed⟩ := hneeds
  have hnot : ∀ f d, st.phase = .makingRoom f d → st.makeRoomForWrite env f d ≠ .enough := by
    intro f d hp hroom
    rw [hphase] at hp
    obtain ⟨rfl, rfl⟩ := Phase.makingRoom.inj hp
    have hcases := makeRoomForWrite_cases env st force allowDelay
    rw [hroom] at hcases
    dsimp only at hcases
    rw [hneed] at hcases
    cases hcases
  cases h with
  | lead hp | append hp | sync hp | insert hp | finish hp =>
    rw [hphase] at hp
    cases hp
  | @delay f d hp hroom =>
    rw [hphase] at hp
    obtain ⟨rfl, rfl⟩ := Phase.makingRoom.inj hp
    exact Or.inr ⟨⟨force, false, rfl, hneed⟩, rfl, rfl⟩
  | switch =>
    left
    simp [switchMemTable]
  | skip hp hroom => exact absurd hroom (hnot _ _ hp)
  | group hp hroom => exact absurd hroom (hnot _ _ hp)
  | leave => exact Or.inr ⟨⟨force, allowDelay, hphase, hneed⟩, rfl, rfl⟩

end WriteQueue

namespace Shared

variable {S : Set (Entry K V)} {H : List (Op K V)} {calls : List (Writer K V)}
  {st st' : Shared K V} {cfg : Config K V} {env : WriteEnv K V} {e : WriteQueue.Event K V}

theorem Step.closed_eq (h : Step cfg env st e st') : st'.write.closed = st.write.closed ∨
    st.write.NeedsSwitch env ∧ st'.write.closed = st.write.closed ++ [st.write.log] := by
  cases h with
  | writing h => exact h.closed_eq
  | _ => exact Or.inl rfl

theorem Step.switch_first (h : Step cfg env st e st') (hneeds : st.write.NeedsSwitch env) :
    st.write.closed.length < st'.write.closed.length ∨
      st'.write.NeedsSwitch env ∧ st'.write.done = st.write.done ∧
        st'.write.closed = st.write.closed := by
  cases h with
  | writing h => exact h.switch_first hneeds
  | _ => exact Or.inr ⟨hneeds, rfl, rfl⟩

theorem exists_needsSwitch {events : List (WriteQueue.Event K V)}
    (h : Trace st (Step cfg env) events st') : st'.write.closed = st.write.closed ∨
      ∃ a b mid, events = a ++ b ∧ Trace st (Step cfg env) a mid ∧
        Trace mid (Step cfg env) b st' ∧ mid.write.NeedsSwitch env := by
  induction h with
  | start => exact Or.inl rfl
  | @step events e s s' htrace hstep ih =>
    obtain hsame | ⟨a, b, mid, rfl, ha, hb, hneeds⟩ := ih
    · obtain hsame' | ⟨hneeds, -⟩ := hstep.closed_eq
      · exact Or.inl (hsame'.trans hsame)
      · exact Or.inr ⟨events, [e], s, rfl, htrace, Trace.start.step hstep, hneeds⟩
    · exact Or.inr ⟨a, b ++ [e], mid, by rw [append_assoc], ha, hb.step hstep, hneeds⟩

theorem switch_first {events : List (WriteQueue.Event K V)}
    (h : Trace st (Step cfg env) events st') (hneeds : st.write.NeedsSwitch env) :
    st.write.closed.length < st'.write.closed.length ∨
      st'.write.NeedsSwitch env ∧ st'.write.done = st.write.done ∧
        st'.write.closed = st.write.closed := by
  induction h with
  | start => exact Or.inr ⟨hneeds, rfl, rfl⟩
  | step _ hstep ih =>
    obtain hlt | ⟨hneeds, hdone, hclosed⟩ := ih
    · left
      obtain heq | ⟨-, heq⟩ := hstep.closed_eq
      · rw [heq]
        exact hlt
      · rw [heq, length_append]
        exact hlt.trans_le (Nat.le_add_right _ _)
    · rw [← hdone, ← hclosed]
      exact hstep.switch_first hneeds

omit [Inhabited K] in
theorem Live.completed_in_tables (h : Live S H calls st) {calls' : List (Writer K V)}
    (hkeeps : Keeps st st') (h' : Live S H calls' st')
    (hlt : st.write.closed.length < st'.write.closed.length) (himm : st'.write.imm = false) :
    ∀ e ∈ entriesFrom (H.length + 1) (writtenOps st.write.done),
      e ∈ st'.version.entries st'.store := by
  obtain ⟨ops, hops, hlog, -⟩ := h.write.current
  obtain ⟨ops', hops', -⟩ := h'.write.current
  obtain ⟨g, hg, hgrow⟩ := hkeeps.grows.log
  have hflushed : st'.write.flushed = st'.write.closed := by
    unfold WriteQueue.flushed
    rw [himm]
    rfl
  -- the generation that was current is closed, with at least the records it had
  obtain ⟨rest, hrest⟩ := hkeeps.grows.closed
  obtain ⟨after, hafter⟩ : ∃ after, rest = g :: after := by
    unfold WriteQueue.generations at hg
    rw [getElem?_append_left hlt, ← hrest, getElem?_append_right (le_refl _),
      Nat.sub_self] at hg
    cases rest with
    | nil => cases hg
    | cons x after =>
      obtain rfl := Option.some.inj hg
      exact ⟨after, rfl⟩
  obtain ⟨more, hmore⟩ : st.write.log.ops <+: g.ops := List.IsPrefix.flatMap hgrow.records _
  have hlen : (writtenOps st.write.done).length ≤
      (st'.write.closed.flatMap Generation.ops).length := by
    rw [← hrest, hafter, ← hops, flatMap_append, flatMap_cons, ← hmore, hlog]
    simp only [length_append]
    omega
  obtain ⟨tail, htail⟩ : writtenOps st.write.done <+: st'.write.closed.flatMap Generation.ops := by
    grind
  intro e he
  rw [h'.entries, hflushed, ← htail, entriesFrom_append, mem_append]
  exact Or.inr (Or.inl he)

/-- A call of `Write` comes in. -/
def enqueue (st : Shared K V) (w : Writer K V) : Shared K V :=
  { st with write := { st.write with queue := st.write.queue ++ [w] } }

/-- **Forced switches.** A call of `Write` with a null batch comes in in `st₀`, and the step from
    `st₁` to `st₂` reports it done. Then the memtable that was current in `st₀` has been replaced,
    and whenever later there is no immutable memtable, all batches completed in `st₀` are in
    tables, exactly when between the two some leader could not go on without a new memtable:
    because it had a null batch itself, as the call has if it leads, or because the memtable was
    full. -/
theorem forced_switch_iff {v : Version K} {store : TableStore K V} (hbase : Holds False v store H)
    (hfits : H.length ≤ kMaxSequenceNumber) {logNumber : Nat}
    (hnum : ∀ l, ∀ f ∈ v.files l, f.number < logNumber) (sync : Bool)
    {before after : List (WriteQueue.Event K V)} {st₀ st₁ st₂ : Shared K V}
    (h₀ : Trace (opened H.length logNumber v store) (Step cfg env) before st₀)
    (h₁ : Trace (st₀.enqueue ⟨none, sync⟩) (Step cfg env) after st₁)
    (hstep : Step cfg env st₁ e st₂)
    (hwaits : st₁.write.done.length ≤ st₀.write.done.length + st₀.write.queue.length)
    (hdone : st₀.write.done.length + st₀.write.queue.length < st₂.write.done.length) :
    (st₀.write.closed.length < st₂.write.closed.length ∧
      ∀ later st₃, Trace st₂ (Step cfg env) later st₃ → st₃.write.imm = false →
        ∀ x ∈ entriesFrom (H.length + 1) (writtenOps st₀.write.done),
          x ∈ st₃.version.entries st₃.store) ↔
    ∃ a b mid, after = a ++ b ∧ Trace (st₀.enqueue ⟨none, sync⟩) (Step cfg env) a mid ∧
      Trace mid (Step cfg env) b st₁ ∧ mid.write.NeedsSwitch env := by
  obtain ⟨hlive₀, -⟩ := (Live.opened hbase hnum hfits).trace h₀
  have hlive := hlive₀.enqueue ⟨none, sync⟩
  constructor
  · intro ⟨hlt, _⟩
    obtain hsame | hneeds := exists_needsSwitch h₁
    · obtain hsame' | ⟨hneeds, -⟩ := hstep.closed_eq
      · rw [hsame', hsame] at hlt
        exact absurd hlt (lt_irrefl _)
      · exact ⟨after, [], st₁, (append_nil _).symm, h₁, .start, hneeds⟩
    · exact hneeds
  · intro ⟨a, b, mid, _, ha, hb, hneeds⟩
    obtain ⟨hlivem, hkeepsm⟩ := hlive.trace ha
    obtain ⟨hlive₁, hkeeps₁⟩ := hlivem.trace hb
    have hlt : st₀.write.closed.length < st₂.write.closed.length := by
      have hle : st₀.write.closed.length ≤ mid.write.closed.length :=
        hkeepsm.grows.closed.length_le
      obtain hlt | ⟨-, hsame, -⟩ := switch_first (hb.step hstep) hneeds
      · exact hle.trans_lt hlt
      · have := hkeeps₁.grows.done.length_le
        rw [hsame] at hdone
        omega
    obtain ⟨hlive₂, hkeeps₂⟩ := hlive.trace (h₁.step hstep)
    refine ⟨hlt, ?_⟩
    intro later st₃ h₃ himm
    obtain ⟨hlive₃, hkeeps₃⟩ := hlive₂.trace h₃
    exact hlive.completed_in_tables (hkeeps₂.trans hkeeps₃) hlive₃
      (hlt.trans_le hkeeps₃.grows.closed.length_le) himm

theorem null_leads_run : ∃ (a b : List (WriteQueue.Event Nat Nat)) (mid st₁ st₂ : Shared Nat Nat),
    Trace (exampleWritten.enqueue nullWriter) (Step exampleConfig WriteQueue.exampleEnv) a mid ∧
    Trace mid (Step exampleConfig WriteQueue.exampleEnv) b st₁ ∧
    Trace (exampleWritten.enqueue nullWriter) (Step exampleConfig WriteQueue.exampleEnv) (a ++ b) st₁ ∧
    Step exampleConfig WriteQueue.exampleEnv st₁ .work st₂ ∧
    mid.write.NeedsSwitch WriteQueue.exampleEnv ∧
    st₁.write.done = [WriteQueue.firstWriter] ∧
    st₂.write.done = [WriteQueue.firstWriter, nullWriter] := by
  have s0 : Trace (exampleWritten.enqueue nullWriter) (Step exampleConfig WriteQueue.exampleEnv) []
    (exampleWritten.enqueue nullWriter) := .start
  have s1 := s0.step (.writing (.lead rfl rfl) (by decide))
  have s2 := s1.step (.writing (.switch rfl (by decide)) (by decide))
  exact ⟨_, _, _, _, _, s1, Trace.start.step (.writing (.switch rfl (by decide)) (by decide)), s2,
    .writing (.skip rfl (by decide) rfl rfl) (by decide), ⟨true, false, rfl, rfl⟩, rfl, rfl⟩

theorem forced_switch_iff_example : ∃ st₂ : Shared Nat Nat,
    st₂.write.done = [WriteQueue.firstWriter, nullWriter] ∧ 0 < st₂.write.closed.length ∧
    ∀ later st₃, Trace st₂ (Step exampleConfig WriteQueue.exampleEnv) later st₃ →
      st₃.write.imm = false → (Op.put 1 10).entry 1 ∈ st₃.version.entries st₃.store := by
  obtain ⟨before, h₀⟩ := exampleWritten_run
  obtain ⟨a, b, mid, st₁, st₂, ha, hb, hab, hstep, hneeds, hdone₁, hdone₂⟩ := null_leads_run
  obtain ⟨hlt, htables⟩ := (forced_switch_iff (H := []) (.empty _) (Nat.zero_le _)
    (fun l f hf => absurd hf not_mem_nil) false h₀ hab hstep (by rw [hdone₁]; decide)
    (by rw [hdone₂]; decide)).mpr ⟨a, b, mid, rfl, ha, hb, hneeds⟩
  exact ⟨st₂, hdone₂, hlt, fun later st₃ h₃ himm => htables later st₃ h₃ himm _ mem_cons_self⟩

/-- Another writer leads and takes the null batch into its group: the call returns with the first
    batch still in the current memtable and in no table, and `TEST_CompactMemTable` reports
    success. -/
theorem null_batch_swallowed : ∃ (before after : List (WriteQueue.Event Nat Nat))
    (st₀ st₁ st₂ : Shared Nat Nat),
    Trace exampleOpened (Step exampleConfig WriteQueue.exampleEnv) before st₀ ∧
    Trace (st₀.enqueue nullWriter) (Step exampleConfig WriteQueue.exampleEnv) after st₁ ∧
    Step exampleConfig WriteQueue.exampleEnv st₁ .work st₂ ∧
    st₁.write.done.length ≤ st₀.write.done.length + st₀.write.queue.length ∧
    st₀.write.done.length + st₀.write.queue.length < st₂.write.done.length ∧
    (Op.put 1 10).entry 1 ∈ entriesFrom 1 (writtenOps st₀.write.done) ∧
    st₂.write.closed = [] ∧ (∀ l, st₂.version.files l = []) ∧
    st₂.testCompactMemTable none = some (.ok ()) := by
  obtain ⟨before, h₀⟩ := exampleWritten_run
  have s0 := (h₀.step (.enqueue ⟨some [.put 3 30], false⟩)).step
    (.writing (.lead rfl rfl) (by decide))
  refine ⟨_, _, _, _, _, s0, ((((Trace.start.step
    (.writing (.group rfl (by decide) rfl rfl) (by decide))).step
    (.writing (.append rfl) (by decide))).step
    (.writing (.sync rfl rfl) (by decide))).step
    (.writing (.insert rfl) (by decide))), .writing (.finish rfl) (by decide), ?_⟩
  exact ⟨by decide, by decide, mem_cons_self, rfl, fun l => rfl, rfl⟩

end Shared

end LevelDB
