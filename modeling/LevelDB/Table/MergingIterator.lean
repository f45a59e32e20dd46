/-
  Merging iterators (`table/merger.cc`, `table/iterator_wrapper.h`).

  A `MergingIterator` has one iterator for every child. Going forward all children are at the
  first entry at or after the current one, going backward at the last entry at or before it, and a
  change of direction moves all children but the current one.
-/
import LevelDB.Lib.MergeCursor
import LevelDB.Table.Comparator

namespace LevelDB

open List Option Cursor Merge SortedList

variable {S V T ε κ : Type*}

/-! ## Children -/

/-- `class IteratorWrapper`: an iterator with its key, if it is valid (`valid_` and `key_`). -/
structure IteratorWrapper (S T : Type*) where
  iter : S
  key : Option T

namespace IteratorWrapper

/-- `Set`, and `Update` after a call. -/
def set (m : Machine S (T × V) T ε) (iter : S) : IteratorWrapper S T :=
  ⟨iter, (m.current iter).map Prod.fst⟩

/-- The calls of the wrapper. Only the key is kept, the value is asked for. -/
def machine (m : Machine S (T × V) T ε) : Machine (IteratorWrapper S T) (T × V) T ε where
  current w := w.key.bind fun key => (m.current w.iter).map fun e => (key, e.2)
  error w := m.error w.iter
  seekToFirst w := set m (m.seekToFirst w.iter)
  seekToLast w := set m (m.seekToLast w.iter)
  seek target w := set m (m.seek target w.iter)
  next w := set m (m.next w.iter)
  prev w := set m (m.prev w.iter)

theorem current_set (m : Machine S (T × V) T ε) (iter : S) :
    (machine m).current (set m iter) = m.current iter := by
  show ((m.current iter).map Prod.fst).bind (fun key => (m.current iter).map fun e => (key, e.2)) = _
  cases m.current iter <;> rfl

theorem faithful [LinearOrder κ] {m : Machine S (T × V) T ε} {key : T × V → κ} {rank : T → κ}
    {wellFormed : T → Prop} {es : List (T × V)} {R : S → Nat → Prop}
    (h : m.Faithful key rank wellFormed es R) :
    (machine m).Faithful key rank wellFormed es (fun w i => w = set m w.iter ∧ R w.iter i) where
  current := by
    rintro w i ⟨hw, hR⟩
    rw [hw, current_set]
    exact h.current hR
  error := fun ⟨_, hR⟩ => h.error hR
  seekToFirst := fun ⟨_, hR⟩ => ⟨rfl, h.seekToFirst hR⟩
  seekToLast := fun ⟨_, hR⟩ => ⟨rfl, h.seekToLast hR⟩
  seek := fun ⟨_, hR⟩ ht hk => ⟨rfl, h.seek hR ht hk⟩
  next := fun ⟨_, hR⟩ hi => ⟨rfl, h.next hR hi⟩
  prev_zero := fun ⟨_, hR⟩ hpos => ⟨rfl, h.prev_zero hR hpos⟩
  prev_succ := fun ⟨_, hR⟩ hi => ⟨rfl, h.prev_succ hR hi⟩

end IteratorWrapper

/-! ## The iterator -/

inductive MergingIterator.Direction where
  | forward
  | reverse
  deriving DecidableEq, Repr

/-- `class MergingIterator`; `current` is the number of a child. -/
structure MergingIterator (S T : Type*) where
  children : List (IteratorWrapper S T)
  current : Option Nat
  direction : MergingIterator.Direction

namespace MergingIterator

/-- `MergingIterator::MergingIterator`. -/
def new (m : Machine S (T × V) T ε) (children : List S) : MergingIterator S T :=
  ⟨children.map (IteratorWrapper.set m), none, .forward⟩

section Calls

variable (m : Machine S (T × V) T ε) (compare : T → T → Ordering)

/-- The key of child number `i`, if it is valid. -/
def keyAt (children : List (IteratorWrapper S T)) (i : Nat) : Option T :=
  children[i]?.bind IteratorWrapper.key

/-- One turn of `FindSmallest` and `FindLargest`. -/
def better (order : Ordering) (children : List (IteratorWrapper S T)) (found : Option Nat) (i : Nat) :
    Option Nat :=
  match keyAt children i with
  | none => found
  | some key =>
    match found.bind (keyAt children) with
    | none => some i
    | some best => if compare key best = order then some i else found

/-- `FindSmallest`: the first of the smallest keys. -/
def findSmallest (it : MergingIterator S T) : MergingIterator S T :=
  { it with
    current := (List.range it.children.length).foldl (better compare .lt it.children) none }

/-- `FindLargest`: the last of the largest keys. -/
def findLargest (it : MergingIterator S T) : MergingIterator S T :=
  { it with
    current := (List.range it.children.length).reverse.foldl (better compare .gt it.children) none }

def onAll (call : IteratorWrapper S T → IteratorWrapper S T) (it : MergingIterator S T) :
    MergingIterator S T :=
  { it with children := it.children.map call }

def onCurrent (call : IteratorWrapper S T → IteratorWrapper S T) (it : MergingIterator S T) :
    MergingIterator S T :=
  { it with children := it.children.mapIdx fun i w => if it.current = some i then call w else w }

def onOthers (call : IteratorWrapper S T → IteratorWrapper S T) (it : MergingIterator S T) :
    MergingIterator S T :=
  { it with children := it.children.mapIdx fun i w => if it.current = some i then w else call w }

/-- In `Next`, a child that was going backward: to the first key after `key`. -/
def seekPast (key : T) (w : IteratorWrapper S T) : IteratorWrapper S T :=
  let w := (IteratorWrapper.machine m).seek key w
  match w.key with
  | none => w
  | some key' => if compare key key' = .eq then (IteratorWrapper.machine m).next w else w

/-- In `Prev`, a child that was going forward: to the last key before `key`. -/
def seekBefore (key : T) (w : IteratorWrapper S T) : IteratorWrapper S T :=
  let w := (IteratorWrapper.machine m).seek key w
  if w.key.isSome then (IteratorWrapper.machine m).prev w
  else (IteratorWrapper.machine m).seekToLast w

/-- `key()`, if the iterator is valid. -/
def key (it : MergingIterator S T) : Option T := it.current.bind (keyAt it.children)

/-- `key()` and `value()`, if the iterator is valid. -/
def entry (it : MergingIterator S T) : Option (T × V) :=
  it.current.bind fun i => it.children[i]?.bind (IteratorWrapper.machine m).current

/-- `status()`: the first error of a child. -/
def status (it : MergingIterator S T) : Option ε := it.children.findSome? (IteratorWrapper.machine m).error

def seekToFirst (it : MergingIterator S T) : MergingIterator S T :=
  { (it.onAll (IteratorWrapper.machine m).seekToFirst).findSmallest compare with
    direction := .forward }

def seekToLast (it : MergingIterator S T) : MergingIterator S T :=
  { (it.onAll (IteratorWrapper.machine m).seekToLast).findLargest compare with
    direction := .reverse }

def seek (target : T) (it : MergingIterator S T) : MergingIterator S T :=
  { (it.onAll ((IteratorWrapper.machine m).seek target)).findSmallest compare with
    direction := .forward }

/-- The first half of `Next`. An iterator without a key is not valid, which `Next` asserts. -/
def turnForward (it : MergingIterator S T) : MergingIterator S T :=
  match it.direction, it.key with
  | .reverse, some key => { it.onOthers (seekPast m compare key) with direction := .forward }
  | _, _ => it

/-- The first half of `Prev`. -/
def turnBack (it : MergingIterator S T) : MergingIterator S T :=
  match it.direction, it.key with
  | .forward, some key => { it.onOthers (seekBefore m key) with direction := .reverse }
  | _, _ => it

def next (it : MergingIterator S T) : MergingIterator S T :=
  ((it.turnForward m compare).onCurrent (IteratorWrapper.machine m).next).findSmallest compare

def prev (it : MergingIterator S T) : MergingIterator S T :=
  ((it.turnBack m).onCurrent (IteratorWrapper.machine m).prev).findLargest compare

def machine : Machine (MergingIterator S T) (T × V) T ε where
  current := entry m
  error := status m
  seekToFirst := seekToFirst m compare
  seekToLast := seekToLast m compare
  seek := seek m compare
  next := next m compare
  prev := prev m compare

end Calls

/-! ## The smallest and the largest key -/

section Find

variable [LinearOrder κ] {compare : T → T → Ordering} {order : Ordering} {rank : T → κ}
  {children : List (IteratorWrapper S T)}

def Best (rank : T → κ) (children : List (IteratorWrapper S T)) (visited : List Nat) :
    Option Nat → Prop
  | none => ∀ i ∈ visited, keyAt children i = none
  | some j => ∃ best, keyAt children j = some best ∧
      ∀ i ∈ visited, ∀ key, keyAt children i = some key → rank best ≤ rank key

theorem Best.better (horder : ∀ a b, compare a b = order ↔ rank a < rank b) {visited : List Nat}
    {found : Option Nat} (h : Best rank children visited found) (i : Nat) :
    Best rank children (i :: visited) (better compare order children found i) := by
  unfold MergingIterator.better
  cases hkey : keyAt children i with
  | none =>
    cases found with
    | none => exact forall_mem_cons.mpr ⟨hkey, h⟩
    | some j =>
      obtain ⟨best, hbest, hle⟩ := h
      refine ⟨best, hbest, forall_mem_cons.mpr ⟨?_, hle⟩⟩
      intro key hkey'
      exact absurd (hkey'.symm.trans hkey) (some_ne_none key)
  | some key =>
    have hself : ∀ key', keyAt children i = some key' → rank key ≤ rank key' := by
      intro key' hkey'
      rw [Option.some.inj (hkey.symm.trans hkey')]
    cases found with
    | none =>
      refine ⟨key, hkey, forall_mem_cons.mpr ⟨hself, ?_⟩⟩
      intro i' hi' key' hkey'
      exact absurd (hkey'.symm.trans (h i' hi')) (some_ne_none key')
    | some j =>
      obtain ⟨best, hbest, hle⟩ := h
      rw [bind_some, hbest]
      dsimp only
      split_ifs with hlt
      · refine ⟨key, hkey, forall_mem_cons.mpr ⟨hself, ?_⟩⟩
        intro i' hi' key' hkey'
        exact ((horder _ _).mp hlt).le.trans (hle i' hi' key' hkey')
      · refine ⟨best, hbest, forall_mem_cons.mpr ⟨?_, hle⟩⟩
        intro key' hkey'
        obtain rfl := Option.some.inj (hkey.symm.trans hkey')
        exact not_lt.mp (mt (horder _ _).mpr hlt)

theorem best_foldl (horder : ∀ a b, compare a b = order ↔ rank a < rank b) (rest : List Nat)
    {visited : List Nat} {found : Option Nat} (h : Best rank children visited found) :
    Best rank children (rest.reverse ++ visited)
      (rest.foldl (better compare order children) found) := by
  induction rest generalizing visited found with
  | nil => exact h
  | cons i rest ih =>
    rw [foldl_cons, reverse_cons, append_assoc]
    exact ih (h.better horder i)

theorem lt_length_of_keyAt {i : Nat} {key : T} (h : keyAt children i = some key) :
    i < children.length := by
  obtain ⟨w, hw, -⟩ := bind_eq_some_iff.mp h
  exact (List.getElem?_eq_some_iff.mp hw).1

theorem best_of_all (horder : ∀ a b, compare a b = order ↔ rank a < rank b) {numbers : List Nat}
    (hall : ∀ i < children.length, i ∈ numbers) {found : Option Nat}
    (hfound : numbers.foldl (better compare order children) none = found) :
    (found = none → ∀ i, keyAt children i = none) ∧
    ∀ j, found = some j → ∃ best, keyAt children j = some best ∧
      ∀ i key, keyAt children i = some key → rank best ≤ rank key := by
  have hnone : Best rank children [] none := fun i hi => absurd hi not_mem_nil
  have hbest := best_foldl horder numbers hnone
  rw [append_nil, hfound] at hbest
  constructor
  · rintro rfl i
    by_contra hsome
    obtain ⟨key, hkey⟩ := ne_none_iff_exists'.mp hsome
    exact hsome (hbest i (mem_reverse.mpr (hall i (lt_length_of_keyAt hkey))))
  · rintro j rfl
    obtain ⟨best, hj, hle⟩ := hbest
    exact ⟨best, hj, fun i key hkey =>
      hle i (mem_reverse.mpr (hall i (lt_length_of_keyAt hkey))) key hkey⟩

theorem findSmallest_spec (hcompare : Compares compare rank) (it : MergingIterator S T) :
    ((it.findSmallest compare).current = none → ∀ i, keyAt it.children i = none) ∧
    ∀ j, (it.findSmallest compare).current = some j → ∃ best, keyAt it.children j = some best ∧
      ∀ i key, keyAt it.children i = some key → rank best ≤ rank key := by
  have horder : ∀ a b, compare a b = .lt ↔ rank a < rank b := fun _ _ => hcompare.lt_iff
  exact best_of_all horder (fun _ hi => mem_range.mpr hi) rfl

theorem findLargest_spec (hcompare : Compares compare rank) (it : MergingIterator S T) :
    ((it.findLargest compare).current = none → ∀ i, keyAt it.children i = none) ∧
    ∀ j, (it.findLargest compare).current = some j → ∃ best, keyAt it.children j = some best ∧
      ∀ i key, keyAt it.children i = some key → rank key ≤ rank best := by
  have horder : ∀ a b, compare a b = .gt ↔ OrderDual.toDual (rank a) < OrderDual.toDual (rank b) :=
    fun _ _ => hcompare.gt_iff.trans OrderDual.toDual_lt_toDual.symm
  exact best_of_all horder (fun _ hi => mem_reverse.mpr (mem_range.mpr hi)) rfl

end Find

/-! ## Places of the children -/

section Places

variable [LinearOrder κ] {m : Machine S (T × V) T ε} {compare : T → T → Ordering} {rank : T → κ}
  {wellFormed : T → Prop} {lists : List (List (T × V))} {whole : List (T × V)}
  {R : Nat → IteratorWrapper S T → Nat → Prop} {it : MergingIterator S T} {p : Nat} {x : T × V}

/-- The children are cursors over sorted lists without common keys, and `whole` is the merge of
    these lists. -/
structure Merged (m : Machine S (T × V) T ε) (compare : T → T → Ordering) (rank : T → κ)
    (wellFormed : T → Prop) (lists : List (List (T × V))) (whole : List (T × V))
    (R : Nat → IteratorWrapper S T → Nat → Prop) : Prop where
  compares : Compares compare rank
  child : ∀ {i : Nat} {es : List (T × V)}, lists[i]? = some es →
    (IteratorWrapper.machine m).Faithful (fun e => rank e.1) rank wellFormed es (R i)
  key_eq : ∀ {i w c}, R i w c → w.key = ((IteratorWrapper.machine m).current w).map Prod.fst
  strict : ∀ {i : Nat} {es : List (T × V)}, lists[i]? = some es → Strict (fun e => rank e.1) es
  distinct : ∀ {i j : Nat} {es es' : List (T × V)}, lists[i]? = some es → lists[j]? = some es' →
    i ≠ j → ∀ e ∈ es, e ∉ es'
  wellFormed : ∀ e : T × V, e ∈ whole → wellFormed e.1
  whole_strict : Strict (fun e : T × V => rank e.1) whole
  mem_iff : ∀ e, e ∈ whole ↔ ∃ (i : Nat) (es : List (T × V)), lists[i]? = some es ∧ e ∈ es

/-- Every child is as `Q` says. -/
def Each (lists : List (List (T × V))) (Q : Nat → List (T × V) → IteratorWrapper S T → Prop)
    (it : MergingIterator S T) : Prop :=
  it.children.length = lists.length ∧
    ∀ i w es, it.children[i]? = some w → lists[i]? = some es → Q i es w

/-- The children are where the first `p` elements of the merge end. A child whose part of them has
    `c` elements is at place `place n c` of its `n` elements. -/
def Placed (place : Nat → Nat → Nat) (lists : List (List (T × V))) (whole : List (T × V))
    (R : Nat → IteratorWrapper S T → Nat → Prop) (it : MergingIterator S T) (p : Nat) : Prop :=
  it.Each lists fun i es w => ∃ c, R i w (place es.length c) ∧ Leads whole es p c

def after (_n c : Nat) : Nat := c

/-- The iterator is on element `p` of the merge; a number after the last one stands for an
    iterator that is not valid. Going backward the children are at the last element at or before
    the current one. -/
structure Tracks (m : Machine S (T × V) T ε) (lists : List (List (T × V))) (whole : List (T × V))
    (R : Nat → IteratorWrapper S T → Nat → Prop) (it : MergingIterator S T) (p : Nat) : Prop where
  related : it.Each lists fun i _ w => ∃ c, R i w c
  entry : it.entry m = whole[p]?
  placed : p < whole.length → it.direction = .forward ∧ it.Placed after lists whole R p ∨
    it.direction = .reverse ∧ it.Placed before lists whole R (p + 1)

variable {place : Nat → Nat → Nat}

theorem Placed.related (h : it.Placed place lists whole R p) :
    it.Each lists fun i _ w => ∃ c, R i w c :=
  ⟨h.1, fun i w es hw hes =>
    let ⟨_, hR, _⟩ := h.2 i w es hw hes
    ⟨_, hR⟩⟩

section

variable {Q Q' : Nat → List (T × V) → IteratorWrapper S T → Prop} (h : it.Each lists Q)
include h

theorem Each.update
    {it' : MergingIterator S T} {call : Nat → IteratorWrapper S T → IteratorWrapper S T}
    (hit' : ∀ i, it'.children[i]? = it.children[i]?.map (call i))
    (hlength : it'.children.length = it.children.length)
    (hcall : ∀ i es w, it.children[i]? = some w → lists[i]? = some es → Q i es w → Q' i es (call i w)) :
    it'.Each lists Q' := by
  refine ⟨hlength.trans h.1, ?_⟩
  intro i w' es hw' hes
  obtain ⟨w, hw, rfl⟩ := map_eq_some_iff.mp (hit' i ▸ hw')
  exact hcall i es w hw hes (h.2 i w es hw hes)

theorem Each.onAll {call : IteratorWrapper S T → IteratorWrapper S T}
    (hcall : ∀ i es w, lists[i]? = some es → Q i es w → Q' i es (call w)) :
    (it.onAll call).Each lists Q' :=
  h.update (fun _ => getElem?_map) (length_map _) fun i es w _ => hcall i es w

end

section

variable {Q : Nat → List (T × V) → IteratorWrapper S T → Prop} (h : it.Each lists Q) {i : Nat}
include h

theorem Each.exists_child {es : List (T × V)} (hes : lists[i]? = some es) :
    ∃ w, it.children[i]? = some w ∧ Q i es w := by
  have hlt : i < it.children.length := h.1 ▸ (List.getElem?_eq_some_iff.mp hes).1
  have hw := getElem?_eq_getElem hlt
  exact ⟨_, hw, h.2 i _ es hw hes⟩

theorem Each.exists_list {w : IteratorWrapper S T} (hw : it.children[i]? = some w) :
    ∃ es, lists[i]? = some es ∧ Q i es w := by
  have hlt : i < lists.length := h.1 ▸ (List.getElem?_eq_some_iff.mp hw).1
  have hes := getElem?_eq_getElem hlt
  exact ⟨_, hes, h.2 i w _ hw hes⟩

end

def Heads (place : Nat → Nat → Nat) (lists : List (List (T × V))) (whole : List (T × V))
    (R : Nat → IteratorWrapper S T → Nat → Prop) (it : MergingIterator S T) (p : Nat)
    (es : List (T × V)) (c : Nat) : Prop :=
  ∃ i w, it.children[i]? = some w ∧ lists[i]? = some es ∧ R i w (place es.length c) ∧
    Leads whole es p c

namespace Merged

variable (h : Merged m compare rank wellFormed lists whole R)

include h

theorem subset {i : Nat} {es : List (T × V)} (hes : lists[i]? = some es) : es ⊆ whole :=
  fun e he => (h.mem_iff e).mpr ⟨i, es, hes, he⟩

theorem parts (hp : p ≤ whole.length) (hplaced : it.Placed place lists whole R p) :
    Parts (fun e => rank e.1) whole p (Heads place lists whole R it p) where
  le := hp
  strict := h.whole_strict
  part_strict := fun ⟨_, _, _, hes, _⟩ => h.strict hes
  covers := by
    intro x hx
    obtain ⟨i, es, hes, hmem⟩ := (h.mem_iff x).mp hx
    obtain ⟨w, hw, c, hR, hleads⟩ := hplaced.exists_child hes
    exact ⟨es, c, ⟨i, w, hw, hes, hR, hleads⟩, hmem⟩
  subset := fun ⟨_, _, _, hes, _⟩ => h.subset hes
  leads := fun ⟨_, _, _, _, _, hleads⟩ => hleads

theorem keyAt_eq {i c : Nat} {w : IteratorWrapper S T} {es : List (T × V)}
    (hw : it.children[i]? = some w) (hes : lists[i]? = some es) (hR : R i w c) :
    keyAt it.children i = es[c]?.map Prod.fst := by
  rw [keyAt, hw, bind_some, h.key_eq hR, (h.child hes).current hR]

theorem exists_of_keyAt (hplaced : it.Placed place lists whole R p) {j : Nat} {key : T}
    (hkey : keyAt it.children j = some key) :
    ∃ es c e, Heads place lists whole R it p es c ∧ es[place es.length c]? = some e ∧ e.1 = key ∧
      it.children[j]?.bind (IteratorWrapper.machine m).current = some e := by
  obtain ⟨w, hw, -⟩ := bind_eq_some_iff.mp hkey
  obtain ⟨es, hes, c, hR, hleads⟩ := hplaced.exists_list hw
  rw [h.keyAt_eq hw hes hR] at hkey
  obtain ⟨e, he, rfl⟩ := map_eq_some_iff.mp hkey
  refine ⟨es, c, e, ⟨j, w, hw, hes, hR, hleads⟩, he, rfl, ?_⟩
  rw [hw, bind_some, (h.child hes).current hR, he]

theorem findSmallest (it : MergingIterator S T) (hdirection : it.direction = .forward) (hp : p ≤ whole.length)
    (hplaced : it.Placed after lists whole R p) :
    Tracks m lists whole R (it.findSmallest compare) p := by
  refine ⟨hplaced.related, ?_, fun _ => .inl ⟨hdirection, hplaced⟩⟩
  have hparts := h.parts hp hplaced
  obtain ⟨hnone, hsome⟩ := findSmallest_spec h.compares it
  unfold MergingIterator.entry
  cases hcurrent : (it.findSmallest compare).current with
  | none =>
    refine (hparts.getElem?_of_no_next ?_).symm
    rintro es c ⟨i, w, hw, hes, hR, -⟩
    exact map_eq_none_iff.mp ((h.keyAt_eq hw hes hR).symm.trans (hnone hcurrent i))
  | some j =>
    obtain ⟨best, hbest, hle⟩ := hsome j hcurrent
    obtain ⟨es, c, e, hhead, he, rfl, hshown⟩ := h.exists_of_keyAt hplaced hbest
    refine hshown.trans (hparts.getElem?_of_least hhead he ?_).symm
    rintro es' c' x ⟨i, w, hw, hes, hR, -⟩ hx
    exact hle i x.1 ((h.keyAt_eq hw hes hR).trans (congrArg (Option.map Prod.fst) hx))

theorem findLargest (it : MergingIterator S T) (hdirection : it.direction = .reverse) (hp : p ≤ whole.length)
    (hplaced : it.Placed before lists whole R p) :
    Tracks m lists whole R (it.findLargest compare) (before whole.length p) := by
  refine ⟨hplaced.related, ?_, ?_⟩
  · have hparts := h.parts hp hplaced
    obtain ⟨hnone, hsome⟩ := findLargest_spec h.compares it
    unfold MergingIterator.entry
    cases hcurrent : (it.findLargest compare).current with
    | none =>
      refine (hparts.getElem?_of_no_before ?_).symm
      rintro es c ⟨i, w, hw, hes, hR, -⟩
      exact map_eq_none_iff.mp ((h.keyAt_eq hw hes hR).symm.trans (hnone hcurrent i))
    | some j =>
      obtain ⟨best, hbest, hle⟩ := hsome j hcurrent
      obtain ⟨es, c, e, hhead, he, rfl, hshown⟩ := h.exists_of_keyAt hplaced hbest
      refine hshown.trans (hparts.getElem?_of_greatest hhead he ?_).symm
      rintro es' c' x ⟨i, w, hw, hes, hR, -⟩ hx
      exact hle i x.1 ((h.keyAt_eq hw hes hR).trans (congrArg (Option.map Prod.fst) hx))
  · intro hlt
    cases p with
    | zero => exact absurd hlt (Nat.lt_irrefl _)
    | succ p => exact .inr ⟨hdirection, hplaced⟩

/-! ## Seeks -/

section

variable (hit : Tracks m lists whole R it p)
include hit

theorem seekToFirst :
    Tracks m lists whole R (it.seekToFirst m compare) 0 := by
  refine h.findSmallest { it.onAll _ with direction := .forward } rfl (Nat.zero_le _) ?_
  refine hit.related.onAll ?_
  rintro i es w hes ⟨c, hR⟩
  exact ⟨0, (h.child hes).seekToFirst hR, leads_zero whole es⟩

theorem seekToLast :
    Tracks m lists whole R (it.seekToLast m compare) (whole.length - 1) := by
  have hbefore : ∀ n, before n n = n - 1 := by
    rintro (_ | n) <;> rfl
  rw [← hbefore]
  refine h.findLargest { it.onAll _ with direction := .reverse } rfl (le_refl _) ?_
  refine hit.related.onAll ?_
  rintro i es w hes ⟨c, hR⟩
  refine ⟨es.length, ?_, leads_length (h.subset hes)⟩
  rw [hbefore]
  exact (h.child hes).seekToLast hR

theorem seek {target : T} {k : Nat}
    (htarget : wellFormed target) (hk : Machine.CutAt (fun e => rank e.1) whole (rank target) k) :
    Tracks m lists whole R (it.seek m compare target) k := by
  refine h.findSmallest { it.onAll _ with direction := .forward } rfl hk.le ?_
  refine hit.related.onAll ?_
  rintro i es w hes ⟨c, hR⟩
  obtain ⟨c', hc'⟩ := Machine.exists_cutAt (h.strict hes) (rank target)
  exact ⟨c', (h.child hes).seek hR htarget hc', leads_of_cutAt (h.subset hes) hc' hk⟩

/-! ## Changes of direction -/

section

variable (hx : whole[p]? = some x)
include hx

theorem exists_current :
    ∃ j w es c, it.current = some j ∧ it.children[j]? = some w ∧ lists[j]? = some es ∧ R j w c ∧
      es[c]? = some x := by
  have hentry := hit.entry.trans hx
  obtain ⟨j, hj, hshown⟩ := bind_eq_some_iff.mp hentry
  obtain ⟨w, hw, hcurrent⟩ := bind_eq_some_iff.mp hshown
  obtain ⟨es, hes, c, hR⟩ := hit.related.exists_list hw
  exact ⟨j, w, es, c, hj, hw, hes, hR, ((h.child hes).current hR).symm.trans hcurrent⟩

theorem key_eq_of_tracks :
    it.key = some x.1 := by
  obtain ⟨j, w, es, c, hj, hw, hes, hR, hc⟩ := h.exists_current hit hx
  rw [MergingIterator.key, hj, bind_some, h.keyAt_eq hw hes hR, hc, map_some]

theorem getElem?_current {i c : Nat}
    {w : IteratorWrapper S T} {es : List (T × V)} (hi : it.current = some i)
    (hw : it.children[i]? = some w) (hes : lists[i]? = some es) (hR : R i w c) : es[c]? = some x := by
  obtain ⟨j, w', es', c', hj, hw', hes', hR', hc'⟩ := h.exists_current hit hx
  obtain rfl := Option.some.inj (hi.symm.trans hj)
  obtain rfl := Option.some.inj (hw.symm.trans hw')
  obtain rfl := Option.some.inj (hes.symm.trans hes')
  rw [← (h.child hes).current hR, (h.child hes).current hR', hc']

theorem not_mem_other {i : Nat}
    {es : List (T × V)} (hi : it.current ≠ some i) (hes : lists[i]? = some es) : x ∉ es := by
  obtain ⟨j, w, es', c, hj, -, hes', -, hc⟩ := h.exists_current hit hx
  have hne : j ≠ i := by
    rintro rfl
    exact hi hj
  exact h.distinct hes' hes hne x (mem_of_getElem? hc)

end

end

/-- The current child is on `x`. The others do not have it, and are where the first `p` elements of
    the merge end. -/
def Turned (place : Nat → Nat → Nat) (lists : List (List (T × V))) (whole : List (T × V))
    (R : Nat → IteratorWrapper S T → Nat → Prop) (it : MergingIterator S T) (p : Nat) (x : T × V) :
    Prop :=
  it.Each lists fun i es w =>
    if it.current = some i then ∃ c, R i w c ∧ es[c]? = some x
    else x ∉ es ∧ ∃ c, R i w (place es.length c) ∧ Leads whole es p c

theorem turned_of_placed (hit : Tracks m lists whole R it p) (hx : whole[p]? = some x)
    {place' : Nat → Nat → Nat} {q : Nat} (hplaced : it.Placed place lists whole R q)
    (hother : ∀ {i es w c}, it.current ≠ some i → lists[i]? = some es →
      R i w (place es.length c) → Leads whole es q c →
      ∃ c, R i w (place' es.length c) ∧ Leads whole es p c) :
    Turned place' lists whole R it p x := by
  refine ⟨hplaced.1, ?_⟩
  intro i w es hw hes
  obtain ⟨c, hR, hleads⟩ := hplaced.2 i w es hw hes
  split_ifs with hi
  · exact ⟨_, hR, h.getElem?_current hit hx hi hw hes hR⟩
  · exact ⟨h.not_mem_other hit hx hi hes, hother hi hes hR hleads⟩

theorem turned_of_onOthers (hit : Tracks m lists whole R it p) (hx : whole[p]? = some x)
    {call : IteratorWrapper S T → IteratorWrapper S T} {direction : Direction}
    (hother : ∀ {i es w c}, it.current ≠ some i → lists[i]? = some es → R i w c →
      ∃ c, R i (call w) (place es.length c) ∧ Leads whole es p c) :
    Turned place lists whole R { it.onOthers call with direction := direction } p x := by
  refine hit.related.update (fun _ => getElem?_mapIdx) length_mapIdx ?_
  rintro i es w hw hes ⟨c, hR⟩
  show if it.current = some i then _ else _
  split_ifs with hi
  · exact ⟨c, hR, h.getElem?_current hit hx hi hw hes hR⟩
  · exact ⟨h.not_mem_other hit hx hi hes, hother hi hes hR⟩

section

variable (hx : whole[p]? = some x) {i c : Nat} {es : List (T × V)} {w : IteratorWrapper S T}
  (hes : lists[i]? = some es)
include hx hes

theorem exists_seek_other (hR : R i w c) :
    ∃ c, R i ((IteratorWrapper.machine m).seek x.1 w) c ∧ Leads whole es p c := by
  obtain ⟨c', hc'⟩ := Machine.exists_cutAt (h.strict hes) (rank x.1)
  have hwhole := Machine.cutAt_getElem h.whole_strict hx
  exact ⟨c', (h.child hes).seek hR (h.wellFormed x (mem_of_getElem? hx)) hc',
    leads_of_cutAt (h.subset hes) hc' hwhole⟩

theorem seekPast_other (hmem : x ∉ es) (hR : R i w c) :
    ∃ c, R i (seekPast m compare x.1 w) c ∧ Leads whole es p c := by
  obtain ⟨c', hR', hleads⟩ := h.exists_seek_other hx hes hR
  have hkey := h.key_eq hR'
  rw [(h.child hes).current hR'] at hkey
  have hstay : seekPast m compare x.1 w = (IteratorWrapper.machine m).seek x.1 w := by
    unfold seekPast
    dsimp only
    rw [hkey]
    cases hget : es[c']? with
    | none => rfl
    | some e =>
      refine if_neg fun heq => hmem ?_
      have he := mem_of_getElem? hget
      have hxe : x = e := h.whole_strict.eq_of_key_eq (mem_of_getElem? hx) (h.subset hes he)
        (h.compares.eq_iff.mp heq)
      rwa [hxe]
  rw [hstay]
  exact ⟨c', hR', hleads⟩

theorem seekBefore_other (hR : R i w c) :
    ∃ c, R i (seekBefore m x.1 w) (before es.length c) ∧ Leads whole es p c := by
  obtain ⟨c', hR', hleads⟩ := h.exists_seek_other hx hes hR
  refine ⟨c', ?_, hleads⟩
  have hkey := h.key_eq hR'
  rw [(h.child hes).current hR'] at hkey
  unfold seekBefore
  dsimp only
  rw [hkey, isSome_map]
  by_cases hlt : c' < es.length
  · rw [getElem?_eq_getElem hlt, if_pos isSome_some]
    cases c' with
    | zero => exact (h.child hes).prev_zero hR' hlt
    | succ c' => exact (h.child hes).prev_succ hR' hlt
  · rw [getElem?_eq_none (not_lt.mp hlt), if_neg (by simp)]
    obtain rfl : c' = es.length := le_antisymm hleads.le (not_lt.mp hlt)
    have hlast := (h.child hes).seekToLast hR'
    cases hn : es.length with
    | zero => rwa [hn] at hlast
    | succ n => rwa [hn] at hlast

end

section

variable (hit : Tracks m lists whole R it p)
include hit

theorem turnForward (hx : whole[p]? = some x) :
    (it.turnForward m compare).direction = .forward ∧
      Turned after lists whole R (it.turnForward m compare) p x := by
  have hlt : p < whole.length := (List.getElem?_eq_some_iff.mp hx).1
  unfold MergingIterator.turnForward
  rw [h.key_eq_of_tracks hit hx]
  obtain ⟨hdirection, hplaced⟩ | ⟨hdirection, hplaced⟩ := hit.placed hlt
  · rw [hdirection]
    exact ⟨hdirection, h.turned_of_placed hit hx hplaced fun _ _ hR hleads => ⟨_, hR, hleads⟩⟩
  · rw [hdirection]
    refine ⟨rfl, h.turned_of_onOthers hit hx ?_⟩
    intro i es w c hi hes hR
    exact h.seekPast_other hx hes (h.not_mem_other hit hx hi hes) hR

theorem turnBack (hx : whole[p]? = some x) :
    (it.turnBack m).direction = .reverse ∧ Turned before lists whole R (it.turnBack m) p x := by
  have hlt : p < whole.length := (List.getElem?_eq_some_iff.mp hx).1
  unfold MergingIterator.turnBack
  rw [h.key_eq_of_tracks hit hx]
  obtain ⟨hdirection, hplaced⟩ | ⟨hdirection, hplaced⟩ := hit.placed hlt
  · rw [hdirection]
    exact ⟨rfl, h.turned_of_onOthers hit hx fun _ hes hR => h.seekBefore_other hx hes hR⟩
  · rw [hdirection]
    refine ⟨hdirection, h.turned_of_placed hit hx hplaced ?_⟩
    intro i es w c hi hes hR hleads
    exact ⟨c, hR, (leads_succ_iff hx (h.not_mem_other hit hx hi hes)).mp hleads⟩

theorem next (hp : p < whole.length) :
    Tracks m lists whole R (it.next m compare) (p + 1) := by
  have hx := getElem?_eq_getElem hp
  obtain ⟨hdirection, hturned⟩ := h.turnForward hit hx
  refine h.findSmallest ((it.turnForward m compare).onCurrent _) hdirection hp ?_
  refine hturned.update (fun _ => getElem?_mapIdx) length_mapIdx ?_
  intro i es w hw hes hchild
  split_ifs at hchild ⊢
  · obtain ⟨c, hR, hc⟩ := hchild
    exact ⟨c + 1, (h.child hes).next hR (List.getElem?_eq_some_iff.mp hc).1,
      leads_succ_of_getElem (h.subset hes) (h.strict hes) h.whole_strict hx hc⟩
  · obtain ⟨hmem, c, hR, hleads⟩ := hchild
    exact ⟨c, hR, (leads_succ_iff hx hmem).mpr hleads⟩

theorem prev (hp : p < whole.length) :
    Tracks m lists whole R (it.prev m compare) (before whole.length p) := by
  have hx := getElem?_eq_getElem hp
  obtain ⟨hdirection, hturned⟩ := h.turnBack hit hx
  refine h.findLargest ((it.turnBack m).onCurrent _) hdirection hp.le ?_
  refine hturned.update (fun _ => getElem?_mapIdx) length_mapIdx ?_
  intro i es w hw hes hchild
  split_ifs at hchild ⊢
  · obtain ⟨c, hR, hc⟩ := hchild
    refine ⟨c, ?_, leads_of_getElem (h.subset hes) (h.strict hes) h.whole_strict hx hc⟩
    have hlt : c < es.length := (List.getElem?_eq_some_iff.mp hc).1
    cases c with
    | zero => exact (h.child hes).prev_zero hR hlt
    | succ c => exact (h.child hes).prev_succ hR hlt
  · exact hchild.2

end

/-- **Merging iterators** are faithful to the merge of what their children are faithful to. -/
theorem faithful : (machine m compare).Faithful (fun e => rank e.1) rank wellFormed whole
    (Tracks m lists whole R) where
  current := fun hit => hit.entry
  error := by
    intro it p hit
    refine findSome?_eq_none_iff.mpr ?_
    intro w hw
    obtain ⟨i, hi⟩ := mem_iff_getElem?.mp hw
    obtain ⟨es, hes, c, hR⟩ := hit.related.exists_list hi
    exact (h.child hes).error hR
  seekToFirst := fun hit => h.seekToFirst hit
  seekToLast := fun hit => h.seekToLast hit
  seek := fun hit htarget hk => h.seek hit htarget hk
  next := fun hit hp => h.next hit hp
  prev_zero := fun hit hpos => h.prev hit hpos
  prev_succ := fun hit hp => h.prev hit hp

end Merged

end Places

/-! ## Runs -/

section Runs

variable [LinearOrder κ]

/-- The children are cursors over strictly increasing lists, with all keys distinct. -/
structure Children (m : Machine S (T × V) T ε) (rank : T → κ) (wellFormed : T → Prop)
    (children : List S) (lists : List (List (T × V))) (R : Nat → S → Nat → Prop) : Prop where
  length : children.length = lists.length
  faithful : ∀ i es s, lists[i]? = some es → children[i]? = some s →
    m.Faithful (fun e => rank e.1) rank wellFormed es (R i) ∧ ∃ c, R i s c
  strict : ∀ es ∈ lists, Strict (fun e => rank e.1) es
  distinct : lists.Pairwise fun es es' => ∀ x ∈ es, ∀ y ∈ es', rank x.1 ≠ rank y.1
  wellFormed : ∀ es ∈ lists, ∀ e ∈ es, wellFormed e.1

variable {m : Machine S (T × V) T ε} {compare : T → T → Ordering} {rank : T → κ}
  {wellFormed : T → Prop} {children : List S} {lists : List (List (T × V))}
  {R : Nat → S → Nat → Prop}

namespace Children

section

variable (h : Children m rank wellFormed children lists R)
include h

theorem exists_child {i : Nat} {es : List (T × V)} (hes : lists[i]? = some es) :
    m.Faithful (fun e => rank e.1) rank wellFormed es (R i) := by
  have hlt : i < children.length := h.length ▸ (List.getElem?_eq_some_iff.mp hes).1
  exact (h.faithful i es _ hes (getElem?_eq_getElem hlt)).1

theorem mem_mergeAll_iff (e : T × V) :
    e ∈ mergeAll (fun e => rank e.1) lists ↔
      ∃ (i : Nat) (es : List (T × V)), lists[i]? = some es ∧ e ∈ es := by
  rw [(mergeAll_perm fun es hes => (h.strict es hes).imp le_of_lt).mem_iff, mem_flatten]
  constructor
  · rintro ⟨es, hes, he⟩
    obtain ⟨i, hi⟩ := mem_iff_getElem?.mp hes
    exact ⟨i, es, hi, he⟩
  · rintro ⟨i, es, hi, he⟩
    exact ⟨es, mem_of_getElem? hi, he⟩

theorem not_mem_of_ne {i j : Nat}
    {es es' : List (T × V)} (hi : lists[i]? = some es) (hj : lists[j]? = some es') (hij : i ≠ j)
    (e : T × V) (he : e ∈ es) : e ∉ es' := by
  grind [List.getElem?_eq_some_iff, Nat.lt_or_gt_of_ne, pairwise_iff_getElem, h.distinct]

theorem merged (hcompare : Compares compare rank) :
    Merged m compare rank wellFormed lists (mergeAll (fun e => rank e.1) lists)
      (fun i w c => w = IteratorWrapper.set m w.iter ∧ R i w.iter c) where
  compares := hcompare
  child := fun hes => IteratorWrapper.faithful (h.exists_child hes)
  key_eq := by
    rintro i w c ⟨hw, -⟩
    rw [hw, IteratorWrapper.current_set]
    rfl
  strict := fun hes => h.strict _ (mem_of_getElem? hes)
  distinct := fun hi hj hij => h.not_mem_of_ne hi hj hij
  wellFormed := by
    intro e he
    obtain ⟨i, es, hes, hmem⟩ := (h.mem_mergeAll_iff e).mp he
    exact h.wellFormed es (mem_of_getElem? hes) e hmem
  whole_strict := mergeAll_lt h.strict h.distinct
  mem_iff := h.mem_mergeAll_iff

theorem tracks_new (whole : List (T × V)) :
    Tracks m lists whole (fun i w c => w = IteratorWrapper.set m w.iter ∧ R i w.iter c)
      (new m children) whole.length := by
  refine ⟨⟨(length_map _).trans h.length, ?_⟩, ?_, fun hlt => absurd hlt (Nat.lt_irrefl _)⟩
  · intro i w es hw hes
    obtain ⟨s, hs, rfl⟩ := map_eq_some_iff.mp (getElem?_map ▸ hw)
    obtain ⟨-, c, hR⟩ := h.faithful i es s hes hs
    exact ⟨c, rfl, hR⟩
  · exact (getElem?_eq_none (le_refl _)).symm

end

end Children

/-- **Merging iterators.** From a new iterator, every run of calls shows what a cursor over the
    sorted merge of the children shows. -/
theorem merging_cursor (hcompare : Compares compare rank)
    (h : Children m rank wellFormed children lists R) (calls : List (Call T))
    (hcalls : ∀ call ∈ calls, Machine.Allows wellFormed call) :
    run (machine m compare).step (machine m compare).observe (new m children) calls =
      run (fun c call => Cursor.step (fun e => rank e.1) (mergeAll (fun e => rank e.1) lists) c
          (Machine.rankCall rank call)) (fun c => (c.current, none)) .invalid calls := by
  have hmerged := h.merged hcompare
  have hrun := hmerged.faithful.run_eq hmerged.whole_strict (h.tracks_new _) hcalls
  rwa [nth_of_le (le_refl _)] at hrun

end Runs

def listChildren : Machine (List (Nat × Nat) × Cursor (Nat × Nat)) (Nat × Nat) Nat Status :=
  .ofList Prod.fst id

theorem merging_cursor_three :
    run (machine listChildren compare).step (machine listChildren compare).observe
        (new listChildren [([(1, 10), (4, 40)], .invalid), ([(2, 20)], .invalid)])
        [.seek 2, .prev, .next, .next, .prev] =
      some [(some (2, 20), none), (some (1, 10), none), (some (2, 20), none), (some (4, 40), none),
        (some (2, 20), none)] := by
  have hcompare : Compares (compare : Nat → Nat → Ordering) id :=
    ⟨compare_lt_iff_lt, compare_eq_iff_eq⟩
  have hchildren : Children listChildren id (fun _ => True)
      [([(1, 10), (4, 40)], .invalid), ([(2, 20)], .invalid)] [[(1, 10), (4, 40)], [(2, 20)]]
      fun i s c => s = ([[(1, 10), (4, 40)], [(2, 20)]][i]?.getD [],
        nth ([[(1, 10), (4, 40)], [(2, 20)]][i]?.getD []) c) := by
    refine ⟨rfl, ?_, by decide, by decide, fun _ _ _ _ => trivial⟩
    rintro (_ | _ | i) es s hes hs
    · obtain rfl := Option.some.inj hes
      obtain rfl := Option.some.inj hs
      exact ⟨Machine.ofList_faithful _ _ _ _, 2, rfl⟩
    · obtain rfl := Option.some.inj hes
      obtain rfl := Option.some.inj hs
      exact ⟨Machine.ofList_faithful _ _ _ _, 1, rfl⟩
    · exact absurd hes (some_ne_none es).symm
  have hrun := merging_cursor hcompare hchildren [.seek 2, .prev, .next, .next, .prev]
    (by simp [Machine.Allows])
  exact hrun.trans (by decide)

/-! ## `NewMergingIterator` -/

section NewMergingIterator

variable [LinearOrder κ] {m : Machine S (T × V) T ε} {compare : T → T → Ordering} {rank : T → κ}
  {wellFormed : T → Prop} {children : List S} {lists : List (List (T × V))}

/-- `NewMergingIterator`: an empty iterator, the only child, or a merging iterator. -/
def newMergingIterator (m : Machine S (T × V) T ε) : List S → Unit ⊕ S ⊕ MergingIterator S T
  | [] => .inl ()
  | [child] => .inr (.inl child)
  | children => .inr (.inr (new m children))

/-- The calls of what `NewMergingIterator` returns. -/
def newMachine (m : Machine S (T × V) T ε) (compare : T → T → Ordering) :
    Machine (Unit ⊕ S ⊕ MergingIterator S T) (T × V) T ε :=
  Machine.empty.sum (m.sum (machine m compare))

variable (hcompare : Compares compare rank)
  (hchildren : Forall₂ (fun s es => m.At (fun e => rank e.1) rank wellFormed es s es.length)
    children lists) (hstrict : ∀ es ∈ lists, Strict (fun e => rank e.1) es)
  (hdistinct : lists.Pairwise fun es es' => ∀ x ∈ es, ∀ y ∈ es', rank x.1 ≠ rank y.1)
  (hwf : ∀ es ∈ lists, ∀ e ∈ es, wellFormed e.1)
include hchildren hstrict hdistinct hwf

theorem exists_children : ∃ R, Children m rank wellFormed children lists R := by
  have hat : ∀ i : Nat, ∃ R : S → Nat → Prop, ∀ es s, lists[i]? = some es → children[i]? = some s →
      m.Faithful (fun e => rank e.1) rank wellFormed es R ∧ ∃ c, R s c := by
    intro i
    by_cases hi : i < children.length
    · have hi' : i < lists.length := hchildren.length_eq ▸ hi
      obtain ⟨R, hR, hs⟩ := hchildren.get hi hi'
      refine ⟨R, ?_⟩
      intro es s hes hchild
      obtain ⟨_, rfl⟩ := List.getElem?_eq_some_iff.mp hes
      obtain ⟨_, rfl⟩ := List.getElem?_eq_some_iff.mp hchild
      exact ⟨hR, _, hs⟩
    · refine ⟨fun _ _ => False, ?_⟩
      intro es s _ hchild
      exact absurd (List.getElem?_eq_some_iff.mp hchild).1 hi
  choose R hR using hat
  exact ⟨R, hchildren.length_eq, fun i => hR i, hstrict, hdistinct, hwf⟩

include hcompare in
theorem newMergingIterator_at :
    (newMachine m compare).At (fun e => rank e.1) rank wellFormed
      (mergeAll (fun e => rank e.1) lists) (newMergingIterator m children)
      (mergeAll (fun e => rank e.1) lists).length := by
  obtain ⟨R, h⟩ := exists_children hchildren hstrict hdistinct hwf
  cases hchildren with
  | nil => exact ⟨_, (Machine.empty_faithful _ _ _).embed (Machine.embeds_inl _ _), (), rfl, trivial⟩
  | cons hchild hrest =>
    cases hrest with
    | nil =>
      rw [mergeAll_singleton (hstrict _ mem_cons_self)]
      exact (hchild.embed (Machine.embeds_inl _ _)).embed (Machine.embeds_inr _ _)
    | cons hchild' hrest =>
      have hmerged : (machine m compare).At _ _ _ _ (new m _) _ :=
        ⟨_, (h.merged hcompare).faithful, h.tracks_new _⟩
      exact (hmerged.embed (Machine.embeds_inr _ _)).embed (Machine.embeds_inr _ _)

end NewMergingIterator

end MergingIterator

end LevelDB
