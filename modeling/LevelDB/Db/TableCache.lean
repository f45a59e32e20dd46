/-
  The table cache (`db/table_cache.cc`) under any number of threads.

  `FindTable` holds `mutex_` only while it looks at `cache_`. The file is opened in between, so that
  several threads may open one file, and the second look decides whose table stays. A step is one
  critical section, one opening, or `Evict`; the steps of different calls interleave in any order.
-/
import LevelDB.Lib.Trace
import LevelDB.Version.Version

namespace LevelDB

open Transition Function

variable {K V H : Type}

namespace TableCache

/-- Where a call of `FindTable` is. -/
inductive Stage (H : Type) where
  | lookup
  | opening
  | opened (entry : H)
  | returned (result : Except Status H)

/-- A call of `FindTable(file_number, file_size)`. -/
structure Call (H : Type) where
  number : Nat
  fileSize : Nat
  stage : Stage H

inductive Event where
  | findTable (id : Nat)
  | evict (number : Nat)
  deriving DecidableEq

end TableCache

/-- `class TableCache`: `cache_`, with entries of type `H`, and the calls by numbers of their own. -/
structure TableCache (H : Type) where
  cache : Nat → Option H
  calls : Nat → Option (TableCache.Call H)

namespace TableCache

def init : TableCache H := ⟨fun _ => none, fun _ => none⟩

def setCall (s : TableCache H) (id : Nat) (c : Call H) : TableCache H :=
  { s with calls := update s.calls id (some c) }

/-- The steps. `opens` has what `NewRandomAccessFile` and `Table::Open` may return for a file number
    and size: different entries for one file, or errors. -/
inductive Step (opens : Nat → Nat → Except Status H → Prop) :
    TableCache H → Event → TableCache H → Prop
  | call {s id} (number fileSize : Nat) (hid : s.calls id = none) :
    Step opens s (.findTable id) (s.setCall id ⟨number, fileSize, .lookup⟩)
  | hit {s id c entry} (hc : s.calls id = some c) (hstage : c.stage = .lookup)
      (hcache : s.cache c.number = some entry) :
    Step opens s (.findTable id) (s.setCall id { c with stage := .returned (.ok entry) })
  | miss {s id c} (hc : s.calls id = some c) (hstage : c.stage = .lookup)
      (hcache : s.cache c.number = none) :
    Step opens s (.findTable id) (s.setCall id { c with stage := .opening })
  | fail {s id c} (st : Status) (hc : s.calls id = some c) (hstage : c.stage = .opening)
      (hopen : opens c.number c.fileSize (.error st)) :
    Step opens s (.findTable id) (s.setCall id { c with stage := .returned (.error st) })
  | openTable {s id c} (entry : H) (hc : s.calls id = some c) (hstage : c.stage = .opening)
      (hopen : opens c.number c.fileSize (.ok entry)) :
    Step opens s (.findTable id) (s.setCall id { c with stage := .opened entry })
  | drop {s id c entry found} (hc : s.calls id = some c) (hstage : c.stage = .opened entry)
      (hcache : s.cache c.number = some found) :
    Step opens s (.findTable id) (s.setCall id { c with stage := .returned (.ok found) })
  | insert {s id c entry} (hc : s.calls id = some c) (hstage : c.stage = .opened entry)
      (hcache : s.cache c.number = none) :
    Step opens s (.findTable id) { s.setCall id { c with stage := .returned (.ok entry) } with
      cache := update s.cache c.number (some entry) }
  | evict {s} (number : Nat) :
    Step opens s (.evict number) { s with cache := update s.cache number none }

/-- `TableCache::Get` with the result of `FindTable`. -/
def get [LinearOrder K] (table : H → Table K V) (result : Except Status H) (k : InternalKey K) :
    Except Status (Option (Entry K V)) :=
  result.map fun entry => (table entry).internalGet k

variable {opens : Nat → Nat → Except Status H → Prop} {s s' : TableCache H} {e : Event}
  {events : List Event}

/-- A call has an entry or an error of its file. What it returned is still in the cache, unless the
    file has been evicted. -/
def Call.Sound (opens : Nat → Nat → Except Status H → Prop) (evicted : Prop) (cached : Option H)
    (c : Call H) : Prop :=
  match c.stage with
  | .lookup | .opening => True
  | .opened entry => opens c.number c.fileSize (.ok entry)
  | .returned (.error st) => opens c.number c.fileSize (.error st)
  | .returned (.ok entry) =>
    (∃ size, opens c.number size (.ok entry)) ∧ (evicted ∨ cached = some entry)

theorem Call.Sound.mono {evicted evicted' : Prop} {cached cached' : Option H} {c : Call H}
    (h : c.Sound opens evicted cached)
    (hkept : ∀ entry, evicted ∨ cached = some entry → evicted' ∨ cached' = some entry) :
    c.Sound opens evicted' cached' := by
  unfold Call.Sound at h ⊢
  split
  all_goals simp_all

/-- The invariant of all runs. -/
structure Inv (opens : Nat → Nat → Except Status H → Prop) (events : List Event)
    (s : TableCache H) : Prop where
  cached : ∀ number entry, s.cache number = some entry → ∃ size, opens number size (.ok entry)
  calls : ∀ id c, s.calls id = some c →
    c.Sound opens (.evict c.number ∈ events) (s.cache c.number)

theorem Inv.setCall (h : Inv opens events s) {id : Nat} {c : Call H}
    (hc : c.Sound opens (.evict c.number ∈ events) (s.cache c.number)) :
    Inv opens events (s.setCall id c) where
  cached := h.cached
  calls := by
    intro id' c' hc'
    unfold TableCache.setCall at hc'
    dsimp only at hc'
    by_cases hid : id' = id
    · rw [hid, update_self] at hc'
      exact Option.some.inj hc' ▸ hc
    · rw [update_of_ne hid] at hc'
      exact h.calls id' c' hc'

/-- Only a number that is free or evicted gets another entry. -/
theorem Inv.setCache (h : Inv opens events s) {number : Nat} {found : Option H}
    (hfound : ∀ entry ∈ found, ∃ size, opens number size (.ok entry))
    (hfree : s.cache number = none ∨ .evict number ∈ events) :
    Inv opens events { s with cache := update s.cache number found } where
  cached := by
    intro n entry hn
    dsimp only at hn
    by_cases heq : n = number
    · rw [heq, update_self] at hn
      exact heq ▸ hfound entry hn
    · rw [update_of_ne heq] at hn
      exact h.cached n entry hn
  calls := by
    intro id c hc
    refine (h.calls id c hc).mono fun entry hkept => ?_
    dsimp only
    by_cases heq : c.number = number
    · grind
    · rwa [update_of_ne heq]

theorem Inv.step (h : Inv opens events s) (hstep : Step opens s e s') :
    Inv opens (events ++ [e]) s' := by
  have hmore : ∀ e, Inv opens (events ++ [e]) s := fun e => ⟨h.cached, fun id c hc =>
    (h.calls id c hc).mono fun _ => .imp_left (List.mem_append_left _)⟩
  cases hstep with
  | call number fileSize hid => exact (hmore _).setCall trivial
  | hit hc hstage hcache => exact (hmore _).setCall ⟨h.cached _ _ hcache, .inr hcache⟩
  | miss hc hstage hcache => exact (hmore _).setCall trivial
  | fail st hc hstage hopen => exact (hmore _).setCall hopen
  | openTable entry hc hstage hopen => exact (hmore _).setCall hopen
  | drop hc hstage hcache => exact (hmore _).setCall ⟨h.cached _ _ hcache, .inr hcache⟩
  | @insert id c entry hc hstage hcache =>
    have hopened := h.calls id c hc
    unfold Call.Sound at hopened
    rw [hstage] at hopened
    have hset := (hmore (.findTable id)).setCache
      (fun _ hfound => Option.some.inj hfound ▸ ⟨_, hopened⟩) (.inl hcache)
    exact hset.setCall ⟨⟨_, hopened⟩, .inr (update_self _ _ _)⟩
  | evict number =>
    exact (hmore _).setCache nofun (.inr (List.mem_append_right _ (List.mem_singleton.mpr rfl)))

theorem inv_of_trace (h : Trace init (Step opens) events s) : Inv opens events s := by
  refine Trace.invariant ⟨?_, ?_⟩ (fun _ hs hstep => hs.step hstep) h
  · exact fun _ _ hentry => (Option.some_ne_none _ hentry.symm).elim
  · exact fun _ _ hc => (Option.some_ne_none _ hc.symm).elim

/-- **The cache is transparent.** However the calls interleave, `Get` answers what the table of the
    file answers, or fails with an error of opening that file. -/
theorem get_transparent [LinearOrder K] {table : H → Table K V} {store : TableStore K V}
    (hopens : ∀ number size entry, opens number size (.ok entry) → table entry = store number)
    (htrace : Trace init (Step opens) events s) {id : Nat} {c : Call H}
    {result : Except Status H} (hc : s.calls id = some c) (hresult : c.stage = .returned result)
    (k : InternalKey K) :
    get table result k = store.cacheGet c.number k ∨
      ∃ st, opens c.number c.fileSize (.error st) ∧ get table result k = .error st := by
  have hsound := (inv_of_trace htrace).calls id c hc
  unfold Call.Sound at hsound
  rw [hresult] at hsound
  cases result with
  | error st => exact .inr ⟨st, hsound, rfl⟩
  | ok entry =>
    obtain ⟨⟨size, hentry⟩, -⟩ := hsound
    refine .inl ?_
    unfold get TableStore.cacheGet
    rw [← hopens _ _ _ hentry]
    rfl

/-- **One table for a file.** As long as a file is not evicted, all calls for it return the same
    entry, however many threads have opened it at the same time. -/
theorem findTable_shared (htrace : Trace init (Step opens) events s) {id id' : Nat}
    {c c' : Call H} {entry entry' : H} (hc : s.calls id = some c) (hc' : s.calls id' = some c')
    (hn : c'.number = c.number) (hevict : .evict c.number ∉ events)
    (hresult : c.stage = .returned (.ok entry)) (hresult' : c'.stage = .returned (.ok entry')) :
    entry = entry' := by
  have hinv := inv_of_trace htrace
  have hsound := hinv.calls id c hc
  have hsound' := hinv.calls id' c' hc'
  unfold Call.Sound at hsound hsound'
  rw [hresult] at hsound
  rw [hresult', hn] at hsound'
  exact Option.some.inj
    ((hsound.2.resolve_left hevict).symm.trans (hsound'.2.resolve_left hevict))

/-! Two calls that both open file 1. Entries are a file number with a serial number. -/

def numbered (number _ : Nat) (result : Except Status (Nat × Nat)) : Prop :=
  ∃ serial, result = .ok (number, serial)

theorem racing_trace : ∃ events s, Trace init (Step numbered) events s ∧ .evict 1 ∉ events ∧
    s.calls 0 = some ⟨1, 60, .returned (.ok (1, 200))⟩ ∧
    s.calls 1 = some ⟨1, 60, .returned (.ok (1, 200))⟩ := by
  have hcalls := (Trace.start.step (@Step.call _ numbered init 0 1 60 rfl)).step
    (@Step.call _ numbered _ 1 1 60 rfl)
  have hmisses := (hcalls.step (@Step.miss _ numbered _ 0 _ rfl rfl rfl)).step
    (@Step.miss _ numbered _ 1 _ rfl rfl rfl)
  have hopens := (hmisses.step (@Step.openTable _ numbered _ 0 _ (1, 100) rfl rfl ⟨100, rfl⟩)).step
    (@Step.openTable _ numbered _ 1 _ (1, 200) rfl rfl ⟨200, rfl⟩)
  have hends := (hopens.step (@Step.insert _ numbered _ 1 _ _ rfl rfl rfl)).step
    (@Step.drop _ numbered _ 0 _ _ _ rfl rfl rfl)
  exact ⟨_, _, hends, by decide, rfl, rfl⟩

theorem get_transparent_racing : ∃ events s, Trace init (Step numbered) events s ∧
    ∀ c result, s.calls 0 = some c → c.stage = .returned result →
      get (fun entry => Version.straddlingStore entry.1) result (lookupKey 4 9) =
        Version.straddlingStore.cacheGet c.number (lookupKey 4 9) := by
  obtain ⟨events, s, htrace, -, -, -⟩ := racing_trace
  refine ⟨events, s, htrace, fun c result hc hresult => ?_⟩
  have hopens : ∀ number size entry, numbered number size (.ok entry) →
      Version.straddlingStore entry.1 = Version.straddlingStore number := by
    rintro number size _ ⟨serial, ⟨⟩⟩
    rfl
  obtain hget | ⟨st, ⟨serial, hst⟩, -⟩ :=
    get_transparent hopens htrace hc hresult (lookupKey 4 9)
  · exact hget
  · cases hst

theorem findTable_shared_racing : ∃ events s c c', Trace init (Step numbered) events s ∧
    s.calls 0 = some c ∧ s.calls 1 = some c' ∧ ∀ entry entry', c.stage = .returned (.ok entry) →
      c'.stage = .returned (.ok entry') → entry = entry' := by
  obtain ⟨events, s, htrace, hevict, h0, h1⟩ := racing_trace
  exact ⟨events, s, _, _, htrace, h0, h1, fun entry entry' => findTable_shared htrace h0 h1 rfl hevict⟩

end TableCache

end LevelDB
