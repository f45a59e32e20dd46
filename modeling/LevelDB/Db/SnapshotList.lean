/-
  Snapshots (`SnapshotList`, `db/snapshot.h`, with `DBImpl::GetSnapshot` and the smallest
  snapshot of `DBImpl::DoCompactionWork`, `db/db_impl.cc`).

  The list is a circle of nodes with a dummy head. Nodes are known by their addresses, and the
  address of a deleted node may be used again. Each call runs with the mutex held, so it is one
  step.
-/
import LevelDB.Compaction.Work
import LevelDB.Lib.Chain
import LevelDB.Lib.Trace

namespace LevelDB

open List Function Chain Transition

/-- `class SnapshotList`, with the fields of the nodes by address. `head` is `&head_`. -/
structure SnapshotList where
  head : Nat
  prev : Nat → Nat
  next : Nat → Nat
  sequenceNumber : Nat → Nat

namespace SnapshotList

def init (head : Nat) : SnapshotList := ⟨head, fun _ => head, fun _ => head, fun _ => 0⟩

def empty (s : SnapshotList) : Bool := s.next s.head == s.head

def oldest (s : SnapshotList) : Nat := s.next s.head

def newest (s : SnapshotList) : Nat := s.prev s.head

/-- `New`, with the address that the allocator gives out. -/
def new (s : SnapshotList) (snapshot sequenceNumber : Nat) : SnapshotList :=
  let s := { s with sequenceNumber := update s.sequenceNumber snapshot sequenceNumber }
  let s := { s with next := update s.next snapshot s.head }
  let s := { s with prev := update s.prev snapshot (s.prev s.head) }
  let s := { s with next := update s.next (s.prev snapshot) snapshot }
  { s with prev := update s.prev (s.next snapshot) snapshot }

def delete (s : SnapshotList) (snapshot : Nat) : SnapshotList :=
  let s := { s with next := update s.next (s.prev snapshot) (s.next snapshot) }
  { s with prev := update s.prev (s.next snapshot) (s.prev snapshot) }

def Circle (s : SnapshotList) (nodes : List Nat) : Prop :=
  Path s.next s.prev s.head nodes s.head ∧ (s.head :: nodes).Nodup

namespace Circle

variable {s : SnapshotList} {nodes a b : List Nat} {snapshot : Nat}

theorem init (head : Nat) : (SnapshotList.init head).Circle [] :=
  ⟨⟨rfl, rfl⟩, nodup_singleton _⟩

theorem new (h : s.Circle nodes) (hfresh : snapshot ∉ s.head :: nodes) (n : Nat) :
    (s.new snapshot n).Circle (nodes ++ [snapshot]) := by
  obtain ⟨hpath, hnodup⟩ := h
  obtain ⟨hhead, hnodes⟩ := ne_and_not_mem_of_not_mem_cons hfresh
  have hlast : snapshot ≠ s.prev s.head := fun heq => hfresh (heq ▸ hpath.prev_mem)
  constructor
  · have hsnoc := hpath.snoc hnodup (nodup_cons.mp hnodup).1 hhead hnodes hhead
    unfold SnapshotList.new
    dsimp only
    rw [update_self, update_of_ne hlast, update_self]
    exact hsnoc
  · show (s.head :: (nodes ++ [snapshot])).Nodup
    rw [← cons_append, nodup_append_comm]
    exact nodup_cons.mpr ⟨hfresh, hnodup⟩

theorem delete (h : s.Circle (a ++ snapshot :: b)) : (s.delete snapshot).Circle (a ++ b) := by
  obtain ⟨hpath, hnodup⟩ := h
  obtain ⟨hhead, hnodes⟩ := nodup_cons.mp hnodup
  -- the node is not its own neighbour, so the second write sees its old link
  have hprev : snapshot ≠ s.prev snapshot := by
    intro heq
    have hmem := (Path.append_iff.mp hpath).1.prev_mem
    rw [← heq] at hmem
    obtain heq | hmem := mem_cons.mp hmem
    · exact hhead (heq ▸ mem_append_right _ mem_cons_self)
    · exact (nodup_append.mp hnodes).2.2 _ hmem _ mem_cons_self rfl
  constructor
  · unfold SnapshotList.delete
    dsimp only
    rw [update_of_ne hprev]
    exact hpath.remove hnodup hhead
  · exact hnodup.sublist (((sublist_cons_self _ _).append_left _).cons_cons _)

end Circle

end SnapshotList

/-! ## Getting and releasing snapshots -/

/-- What `DBImpl` has of it: `snapshots_`, `LastSequence()`, and the snapshots that clients hold,
    with the sequence numbers they were created at, oldest first. -/
structure SnapshotState where
  snapshots : SnapshotList
  lastSequence : Nat
  held : List (Nat × Nat)

/-- A write, `GetSnapshot` with the address of the new node, or the deleter of a snapshot. -/
inductive SnapshotEvent where
  | setLastSequence (sequence : Nat)
  | getSnapshot (snapshot : Nat)
  | release (snapshot : Nat)

namespace SnapshotState

def init (head lastSequence : Nat) : SnapshotState := ⟨.init head, lastSequence, []⟩

/-- `smallest_snapshot` of `DoCompactionWork`. -/
def smallestSnapshot (st : SnapshotState) : Nat :=
  if st.snapshots.empty then st.lastSequence
  else st.snapshots.sequenceNumber st.snapshots.oldest

/-- The steps. The allocator gives out memory that is not in use, and each snapshot is released
    once. -/
inductive Step : SnapshotState → SnapshotEvent → SnapshotState → Prop where
  | setLastSequence {st : SnapshotState} {sequence : Nat} (h : st.lastSequence ≤ sequence) :
      Step st (.setLastSequence sequence) { st with lastSequence := sequence }
  | getSnapshot {st : SnapshotState} {snapshot : Nat}
      (hfresh : snapshot ∉ st.snapshots.head :: st.held.map Prod.fst) :
      Step st (.getSnapshot snapshot)
        { st with
          snapshots := st.snapshots.new snapshot st.lastSequence
          held := st.held ++ [(snapshot, st.lastSequence)] }
  | release {st : SnapshotState} {snapshot : Nat} (h : snapshot ∈ st.held.map Prod.fst) :
      Step st (.release snapshot)
        { st with
          snapshots := st.snapshots.delete snapshot
          held := st.held.filter fun p => p.1 ≠ snapshot }

/-- The circle has the held snapshots, in the order of their sequence numbers. -/
structure Inv (st : SnapshotState) : Prop where
  circle : st.snapshots.Circle (st.held.map Prod.fst)
  sequence : ∀ p ∈ st.held, st.snapshots.sequenceNumber p.1 = p.2
  ordered : st.held.Pairwise fun p q => p.2 ≤ q.2
  le_last : ∀ p ∈ st.held, p.2 ≤ st.lastSequence

variable {st st' : SnapshotState} {e : SnapshotEvent} {events : List SnapshotEvent}

theorem Inv.release (h : st.Inv) {snapshot : Nat} (hmem : snapshot ∈ st.held.map Prod.fst) :
    Inv { st with
      snapshots := st.snapshots.delete snapshot
      held := st.held.filter fun p => p.1 ≠ snapshot } := by
  obtain ⟨p, hp, rfl⟩ := mem_map.mp hmem
  obtain ⟨a, b, hheld⟩ := append_of_mem hp
  have hcircle := h.circle
  rw [hheld, map_append, map_cons] at hcircle
  -- no other snapshot has this address
  have hothers := (nodup_middle.mp (nodup_cons.mp hcircle.2).2)
  rw [← map_append] at hothers
  have hfilter : (st.held.filter fun q => q.1 ≠ p.1) = a ++ b := by
    rw [hheld, filter_append, filter_cons_of_neg (by simp), ← filter_append, filter_eq_self]
    intro q hq
    refine decide_eq_true ?_
    exact fun heq => (nodup_cons.mp hothers).1 (heq ▸ mem_map_of_mem hq)
  have hsub : (a ++ b).Sublist st.held := by
    rw [hheld]
    exact (sublist_cons_self _ _).append_left _
  rw [hfilter]
  refine ⟨?_, fun q hq => h.sequence q (hsub.subset hq), h.ordered.sublist hsub,
    fun q hq => h.le_last q (hsub.subset hq)⟩
  rw [map_append]
  exact hcircle.delete

theorem Step.inv (hstep : Step st e st') (h : st.Inv) : st'.Inv := by
  cases hstep with
  | setLastSequence hle =>
    exact ⟨h.circle, h.sequence, h.ordered, fun p hp => (h.le_last p hp).trans hle⟩
  | @getSnapshot snapshot hfresh =>
    refine ⟨?_, ?_, ?_, ?_⟩
    · rw [map_append]
      exact h.circle.new hfresh _
    · refine forall_mem_append.mpr ⟨fun p hp => ?_, forall_mem_singleton.mpr (update_self _ _ _)⟩
      have hne : p.1 ≠ snapshot := by
        rintro rfl
        exact hfresh (mem_cons_of_mem _ (mem_map_of_mem hp))
      exact (update_of_ne hne _ _).trans (h.sequence p hp)
    · refine pairwise_append.mpr ⟨h.ordered, pairwise_singleton _ _, fun p hp q hq => ?_⟩
      rw [mem_singleton.mp hq]
      exact h.le_last p hp
    · exact forall_mem_append.mpr ⟨h.le_last, forall_mem_singleton.mpr (le_refl _)⟩
  | release hmem => exact h.release hmem

theorem held_later (h : Trace st Step events st') : st.lastSequence ≤ st'.lastSequence ∧
    ∀ p ∈ st'.held, p ∈ st.held ∨ st.lastSequence ≤ p.2 := by
  induction h with
  | start => exact ⟨le_refl _, fun p hp => .inl hp⟩
  | step _ hstep ih =>
    cases hstep with
    | setLastSequence hle => exact ⟨ih.1.trans hle, ih.2⟩
    | getSnapshot => exact ⟨ih.1, forall_mem_append.mpr ⟨ih.2, forall_mem_singleton.mpr (.inr ih.1)⟩⟩
    | release => exact ⟨ih.1, fun p hp => ih.2 p (mem_filter.mp hp).1⟩

namespace Inv

theorem oldest_cases (h : st.Inv) :
    st.held = [] ∧ st.snapshots.empty = true ∨
      ∃ p rest, st.held = p :: rest ∧ st.snapshots.empty = false ∧ st.snapshots.oldest = p.1 := by
  have hnext := h.circle.1.next_eq
  unfold SnapshotList.empty SnapshotList.oldest
  cases hheld : st.held with
  | nil =>
    rw [hheld] at hnext
    exact .inl ⟨rfl, beq_iff_eq.mpr hnext⟩
  | cons p rest =>
    have hhead := (nodup_cons.mp h.circle.2).1
    rw [hheld] at hnext hhead
    refine .inr ⟨p, rest, rfl, ?_, hnext⟩
    rw [beq_eq_false_iff_ne, hnext]
    exact fun heq => hhead (heq ▸ mem_cons_self)

theorem smallestSnapshot_eq (h : st.Inv) :
    st.smallestSnapshot = LevelDB.smallestSnapshot (st.held.map Prod.snd) st.lastSequence := by
  unfold smallestSnapshot
  obtain ⟨hheld, hempty⟩ | ⟨p, rest, hheld, hempty, holdest⟩ := h.oldest_cases
  · rw [hempty, hheld]
    rfl
  · rw [hempty, holdest, h.sequence p (hheld ▸ mem_cons_self), hheld]
    rfl

theorem smallestSnapshot_le (h : st.Inv) : st.smallestSnapshot ≤ st.lastSequence ∧
    ∀ p ∈ st.held, st.smallestSnapshot ≤ p.2 := by
  have hordered := h.ordered
  rw [h.smallestSnapshot_eq]
  cases hheld : st.held with
  | nil => exact ⟨le_refl _, nofun⟩
  | cons p rest =>
    rw [hheld] at hordered
    refine ⟨h.le_last p (hheld ▸ mem_cons_self), forall_mem_cons.mpr ⟨le_refl _, ?_⟩⟩
    exact (pairwise_cons.mp hordered).1

theorem newest_le (h : st.Inv) : st.snapshots.empty = true ∨
    st.snapshots.sequenceNumber st.snapshots.newest ≤ st.lastSequence := by
  obtain ⟨-, hempty⟩ | ⟨p, rest, hheld, -⟩ := h.oldest_cases
  · exact .inl hempty
  · have hlast : st.snapshots.newest ∈ st.held.map Prod.fst := by
      have hprev := h.circle.1.prev_eq
      rw [hheld, map_cons, getLastD_cons] at hprev
      rw [SnapshotList.newest, hprev, hheld, map_cons]
      exact getLastD_mem_cons
    obtain ⟨q, hq, heq⟩ := mem_map.mp hlast
    rw [← heq, h.sequence q hq]
    exact .inr (h.le_last q hq)

end Inv

/-- **Snapshots.** After any calls the list has exactly the snapshots that are held, linked in both
    directions and in the order of their sequence numbers. The oldest one has the smallest of
    these, so the smallest snapshot of a compaction is at most the sequence number of any snapshot
    that is held then or later. -/
theorem oldest_bounds {head n : Nat} (h : Trace (init head n) Step events st) :
    walk st.snapshots.next st.snapshots.head (st.held.length + 1) st.snapshots.head =
        some (st.held.map Prod.fst) ∧
      walk st.snapshots.prev st.snapshots.head (st.held.length + 1) st.snapshots.head =
        some (st.held.map Prod.fst).reverse ∧
      (∀ p ∈ st.held, st.snapshots.sequenceNumber p.1 = p.2) ∧
      (st.held.Pairwise fun p q => p.2 ≤ q.2) ∧
      (st.snapshots.empty = true ↔ st.held = []) ∧
      (st.held ≠ [] → ∃ p ∈ st.held, st.snapshots.oldest = p.1 ∧ ∀ q ∈ st.held, p.2 ≤ q.2) ∧
      st.smallestSnapshot = LevelDB.smallestSnapshot (st.held.map Prod.snd) st.lastSequence ∧
      ∀ {more : List SnapshotEvent} {st' : SnapshotState}, Trace st Step more st' →
        ∀ p ∈ st'.held, st.smallestSnapshot ≤ p.2 := by
  have hinv : st.Inv := Trace.invariant (I := fun _ s => s.Inv) ⟨.init head, nofun, .nil, nofun⟩
    (fun _ hs hstep => hstep.inv hs) h
  obtain ⟨hpath, hnodup⟩ := hinv.circle
  have hhead := (nodup_cons.mp hnodup).1
  have hlength : (st.held.map Prod.fst).length = st.held.length := length_map _
  have hforth := hpath.walk_eq hhead
  have hback := hpath.reverse.walk_eq (mem_reverse.not.mpr hhead)
  rw [hlength] at hforth
  rw [length_reverse, hlength] at hback
  refine ⟨hforth, hback, hinv.sequence, hinv.ordered, ?_, ?_, hinv.smallestSnapshot_eq, ?_⟩
  · obtain ⟨hheld, hempty⟩ | ⟨p, rest, hheld, hempty, -⟩ := hinv.oldest_cases
    · exact iff_of_true hempty hheld
    · rw [hempty, hheld]
      exact iff_of_false Bool.false_ne_true (cons_ne_nil _ _)
  · intro hne
    obtain ⟨hheld, -⟩ | ⟨p, rest, hheld, -, holdest⟩ := hinv.oldest_cases
    · exact absurd hheld hne
    · have hordered := hinv.ordered
      rw [hheld] at hordered ⊢
      exact ⟨p, mem_cons_self, holdest,
        forall_mem_cons.mpr ⟨le_refl _, (pairwise_cons.mp hordered).1⟩⟩
  · intro more st' hlater p hp
    obtain ⟨hlast, hheld⟩ := hinv.smallestSnapshot_le
    obtain hmem | hle := (held_later hlater).2 p hp
    · exact hheld p hmem
    · exact hlast.trans hle

theorem oldest_bounds_reused : ∃ st,
    Trace (init 0 5) Step [.getSnapshot 1, .getSnapshot 2, .release 1, .setLastSequence 8,
      .getSnapshot 1] st ∧ walk st.snapshots.next 0 3 0 = some [2, 1] ∧ st.smallestSnapshot = 5 ∧
      ∀ p ∈ st.held, st.smallestSnapshot ≤ p.2 := by
  have h1 : Trace (init 0 5) Step [.getSnapshot 1] _ :=
    Trace.start.step (.getSnapshot (by decide))
  have h2 : Trace (init 0 5) Step [.getSnapshot 1, .getSnapshot 2] _ :=
    h1.step (.getSnapshot (by decide))
  have h3 : Trace (init 0 5) Step [.getSnapshot 1, .getSnapshot 2, .release 1] _ :=
    h2.step (.release (by decide))
  have h4 : Trace (init 0 5) Step [.getSnapshot 1, .getSnapshot 2, .release 1, .setLastSequence 8,
      .getSnapshot 1] _ :=
    (h3.step (.setLastSequence (by decide))).step (.getSnapshot (by decide))
  obtain ⟨hwalk, -, -, -, -, -, -, hlater⟩ := oldest_bounds h4
  exact ⟨_, h4, hwalk, rfl, hlater .start⟩

/-- **The assertion of `New`** holds whenever `GetSnapshot` calls it: the newest snapshot is not
    after the last sequence number. -/
theorem new_asserted {head n : Nat} (h : Trace (init head n) Step events st) :
    st.snapshots.empty = true ∨
      st.snapshots.sequenceNumber st.snapshots.newest ≤ st.lastSequence := by
  have hinv : st.Inv := Trace.invariant (I := fun _ s => s.Inv) ⟨.init head, nofun, .nil, nofun⟩
    (fun _ hs hstep => hstep.inv hs) h
  exact hinv.newest_le

theorem new_asserted_one : ∃ st, Trace (init 0 5) Step [.getSnapshot 1] st ∧
    st.snapshots.empty = false ∧ (st.snapshots.empty = true ∨
      st.snapshots.sequenceNumber st.snapshots.newest ≤ st.lastSequence) := by
  have h : Trace (init 0 5) Step [.getSnapshot 1] _ := Trace.start.step (.getSnapshot (by decide))
  exact ⟨_, h, rfl, new_asserted h⟩

end SnapshotState

end LevelDB
