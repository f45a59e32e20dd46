/-
  Skip lists (`db/skiplist.h`).

  A node is a number, 0 for `head_`. `next` has the links of every level; a new node is put
  between two nodes on as many levels as its height says. The searches go along a level as long
  as they may, and then down.
-/
import LevelDB.Lib.Chain
import LevelDB.Lib.Cursor
import LevelDB.Table.Comparator

namespace LevelDB

open Option Function Chain Cursor SortedList

variable {E κ : Type*}

/-! ## The list -/

def kMaxHeight : Nat := 12

/-- `class SkipList`: the keys of the nodes from 1 on, `next_` by level and node, and
    `max_height_`. -/
structure SkipList (E : Type*) where
  keys : List E
  next : Nat → Nat → Option Nat
  maxHeight : Nat

namespace SkipList

/-- `SkipList::SkipList`: only `head_`. -/
def init : SkipList E := ⟨[], fun _ _ => none, 1⟩

/-- The key of a node; that of `head_` is never asked for. -/
def key (s : SkipList E) : Nat → Option E
  | 0 => none
  | i + 1 => s.keys[i]?

/-- The loop of the searches: to the next node of the level as long as its key `goesOn`, otherwise
    down. `prev` has the node where each level was left. -/
def descend (s : SkipList E) (goesOn : E → Bool) :
    Nat → Nat → Nat → (Nat → Nat) → Nat × (Nat → Nat)
  | 0, x, _, prev => (x, prev)
  | turns + 1, x, level, prev =>
    match (s.next level x).filter fun y => (s.key y).any goesOn with
    | some y => s.descend goesOn turns y level prev
    | none =>
      let prev := Function.update prev level x
      if level = 0 then (x, prev) else s.descend goesOn turns x (level - 1) prev

/-- A search from `head_` on the highest level. Every turn passes a node or a level. -/
def search (s : SkipList E) (goesOn : E → Bool) : Nat × (Nat → Nat) :=
  s.descend goesOn (s.keys.length + s.maxHeight) 0 (s.maxHeight - 1) fun _ => 0

section Compare

variable (compare : E → E → Ordering)

/-- `FindGreaterOrEqual`: the node, and `prev`. -/
def findGreaterOrEqual (s : SkipList E) (target : E) : Option Nat × (Nat → Nat) :=
  let (x, prev) := s.search fun k => compare k target = .lt
  (s.next 0 x, prev)

def findLessThan (s : SkipList E) (target : E) : Nat := (s.search fun k => compare k target = .lt).1

def findLast (s : SkipList E) : Nat := (s.search fun _ => true).1

def contains (s : SkipList E) (target : E) : Bool :=
  ((s.findGreaterOrEqual compare target).1.bind s.key).any fun k => compare target k = .eq

/-- `Insert`, with the height that `RandomHeight` gives. -/
def insert (s : SkipList E) (key : E) (height : Nat) : SkipList E :=
  let (_, prev) := s.findGreaterOrEqual compare key
  let prev := fun level => if s.maxHeight ≤ level ∧ level < height then 0 else prev level
  let x := s.keys.length + 1
  { keys := s.keys ++ [key]
    next := fun level =>
      if level < height then
        Function.update (Function.update (s.next level) x (s.next level (prev level))) (prev level)
          (some x)
      else s.next level
    maxHeight := if s.maxHeight < height then height else s.maxHeight }

/-- A node that is not `head_`. -/
def nodeOf (x : Nat) : Option Nat := if x = 0 then none else some x

/-- `class SkipList::Iterator`: the state is `node_`. -/
def machine {ε : Type*} (s : SkipList E) : Machine (Option Nat) E E ε where
  current node := node.bind s.key
  error _ := none
  seekToFirst _ := s.next 0 0
  seekToLast _ := nodeOf s.findLast
  seek target _ := (s.findGreaterOrEqual compare target).1
  next node := node.bind (s.next 0)
  prev node := (node.bind s.key).bind fun k => nodeOf (s.findLessThan compare k)

end Compare

/-! ## The order of the nodes -/

variable [LinearOrder κ] {s : SkipList E} {compare : E → E → Ordering} {rank : E → κ}
  {height : Nat → Nat} {order : List Nat}

/-- The nodes in `order` are linked on every level below their height, in the order of their
    keys. -/
structure Ordered (s : SkipList E) (rank : E → κ) (height : Nat → Nat) (order : List Nat) : Prop where
  links : ∀ level, Links (s.next level) 0 (order.filter fun x => level < height x)
  nodes : order.Perm (List.range' 1 s.keys.length)
  sorted : Strict rank (order.filterMap s.key)
  height_pos : ∀ x ∈ order, 0 < height x
  height_le : ∀ x ∈ order, height x ≤ s.maxHeight
  pos : 0 < s.maxHeight

theorem ordered_init (rank : E → κ) (height : Nat → Nat) : Ordered (init (E := E)) rank height [] where
  links := fun _ => rfl
  nodes := List.Perm.refl _
  sorted := List.Pairwise.nil
  height_pos := fun _ h => absurd h List.not_mem_nil
  height_le := fun _ h => absurd h List.not_mem_nil
  pos := Nat.one_pos

section

variable {l : List Nat} {f : Nat → Option E} (h : ∀ x ∈ l, ∃ k, f x = some k)
include h

theorem getElem?_filterMap (i : Nat) : (l.filterMap f)[i]? = l[i]?.bind f := by
  induction l generalizing i with
  | nil => rfl
  | cons x l ih =>
    obtain ⟨k, hk⟩ := h x List.mem_cons_self
    rw [List.filterMap_cons_some hk]
    cases i with
    | zero => exact hk.symm
    | succ i => exact ih (fun y hy => h y (List.mem_cons_of_mem _ hy)) i

theorem filterMap_take (n : Nat) : (l.take n).filterMap f = (l.filterMap f).take n := by
  refine List.ext_getElem? fun i => ?_
  rw [getElem?_filterMap fun x hx => h x (List.mem_of_mem_take hx)]
  by_cases hi : i < n
  · rw [List.getElem?_take_of_lt hi, List.getElem?_take_of_lt hi, getElem?_filterMap h]
  · rw [List.getElem?_take_eq_none (not_lt.mp hi), List.getElem?_take_eq_none (not_lt.mp hi)]
    rfl

theorem filterMap_drop (n : Nat) : (l.drop n).filterMap f = (l.filterMap f).drop n := by
  refine List.ext_getElem? fun i => ?_
  rw [getElem?_filterMap fun x hx => h x (List.mem_of_mem_drop hx), List.getElem?_drop,
    List.getElem?_drop, getElem?_filterMap h]

end

namespace Ordered

variable (h : Ordered s rank height order)

include h

theorem mem_iff {x : Nat} : x ∈ order ↔ 1 ≤ x ∧ x ≤ s.keys.length := by
  rw [h.nodes.mem_iff, List.mem_range'_1]
  omega

theorem nodup : order.Nodup := h.nodes.nodup_iff.mpr List.nodup_range'

theorem length_eq : order.length = s.keys.length := by
  rw [h.nodes.length_eq, List.length_range']

theorem exists_key {x : Nat} (hx : x ∈ order) : ∃ k, s.key x = some k := by
  obtain ⟨hpos, hle⟩ := h.mem_iff.mp hx
  obtain ⟨i, rfl⟩ : ∃ i, x = i + 1 := ⟨x - 1, by omega⟩
  exact ⟨s.keys[i], List.getElem?_eq_getElem hle⟩

omit h in
theorem getLastD_filter {U : List Nat} {level : Nat}
    (hhigh : U ≠ [] → level < height (U.getLastD 0)) :
    (U.filter fun x => level < height x).getLastD 0 = U.getLastD 0 := by
  obtain rfl | ⟨U, y, rfl⟩ := U.eq_nil_or_concat'
  · rfl
  · have hy : level < height y := by
      have := hhigh (by simp)
      rwa [List.getLastD_concat] at this
    rw [List.filter_append, List.filter_singleton, decide_eq_true hy, cond_true,
      List.getLastD_concat, List.getLastD_concat]

theorem next_eq {U W : List Nat} (horder : order = U ++ W) {level : Nat}
    (hhigh : U ≠ [] → level < height (U.getLastD 0)) :
    s.next level (U.getLastD 0) = (W.filter fun x => level < height x).head? := by
  have hlinks := h.links level
  rw [horder, List.filter_append] at hlinks
  rw [← getLastD_filter hhigh]
  exact hlinks.append_right.next_eq

section

variable {A B : List Nat} (horder : order = A ++ B) {goesOn : E → Bool}
  (hA : ∀ x ∈ A, (s.key x).any goesOn = true) (hB : ∀ x ∈ B, (s.key x).any goesOn = false)
include horder hA hB

/-- **The searches.** When the keys go on exactly for the nodes of `A`, which come first, the search
    ends at the last of them, and leaves every level at the last of them that is high enough. -/
theorem descend {turns level : Nat} {U W : List Nat} (hUW : A = U ++ W)
    (hhigh : U ≠ [] → level < height (U.getLastD 0)) (hturns : W.length + level < turns)
    (prev : Nat → Nat) :
    (s.descend goesOn turns (U.getLastD 0) level prev).1 = A.getLastD 0 ∧
      ∀ l, (s.descend goesOn turns (U.getLastD 0) level prev).2 l =
        if l ≤ level then (A.filter fun x => l < height x).getLastD 0 else prev l := by
  induction turns generalizing U W level prev with
  | zero => omega
  | succ turns ih =>
    have hnext := h.next_eq (U := U) (W := W ++ B) (by rw [horder, hUW, List.append_assoc]) hhigh
    rw [List.filter_append] at hnext
    rw [SkipList.descend, hnext]
    cases hW : W.filter fun x => level < height x with
    | cons y rest =>
      -- The next node of the level is one of `A`: the search goes on there.
      obtain ⟨W₁, W₂, rfl, -, hy, -⟩ := List.filter_eq_cons_iff.mp hW
      have hyA : (s.key y).any goesOn = true := hA y (by rw [hUW]; simp)
      rw [List.cons_append, List.head?_cons, filter_some, if_pos hyA]
      have hlast : (U ++ W₁ ++ [y]).getLastD 0 = y := List.getLastD_concat
      have hhigh' : U ++ W₁ ++ [y] ≠ [] → level < height ((U ++ W₁ ++ [y]).getLastD 0) := by
        intro _
        rw [hlast]
        exact of_decide_eq_true hy
      have hsplit : A = U ++ W₁ ++ [y] ++ W₂ := by
        rw [hUW]
        simp
      rw [List.length_append, List.length_cons] at hturns
      have hrec := ih hsplit hhigh' (by omega) prev
      rwa [hlast] at hrec
    | nil =>
      -- There is none of `A` left on this level.
      have hstop : ((B.filter fun x => level < height x).head?).filter
          (fun y => (s.key y).any goesOn) = none := by
        cases hhead : (B.filter fun x => level < height x).head? with
        | none => rfl
        | some y =>
          have hmem := List.mem_of_mem_filter (List.mem_of_mem_head? hhead)
          rw [filter_some, hB y hmem]
          rfl
      have hleft : (A.filter fun x => level < height x).getLastD 0 = U.getLastD 0 := by
        rw [hUW, List.filter_append, hW, List.append_nil, getLastD_filter hhigh]
      rw [List.nil_append, hstop]
      dsimp only
      by_cases hlevel : level = 0
      · subst hlevel
        have hall : W = [] := by
          refine List.eq_nil_iff_forall_not_mem.mpr fun x hx => ?_
          have hpos := h.height_pos x (by rw [horder, hUW]; simp [hx])
          exact List.filter_eq_nil_iff.mp hW x hx (decide_eq_true hpos)
        rw [if_pos rfl]
        refine ⟨by rw [hUW, hall, List.append_nil], fun l => ?_⟩
        dsimp only
        by_cases hl : l ≤ 0
        · obtain rfl : l = 0 := by omega
          rw [if_pos hl, hleft, update_self]
        · rw [if_neg hl, update_of_ne (by omega)]
      · rw [if_neg hlevel]
        obtain ⟨hend, hprev⟩ := ih hUW (fun hne => by have := hhigh hne; omega)
          (show W.length + (level - 1) < turns by omega) (Function.update prev level (U.getLastD 0))
        refine ⟨hend, fun l => ?_⟩
        rw [hprev]
        by_cases hl : l ≤ level - 1
        · rw [if_pos hl, if_pos (by omega)]
        · rw [if_neg hl]
          by_cases heq : l = level
          · rw [heq, update_self, if_pos (le_refl _), hleft]
          · rw [update_of_ne heq, if_neg (by omega)]

theorem search :
    (s.search goesOn).1 = A.getLastD 0 ∧ ∀ l < s.maxHeight,
      (s.search goesOn).2 l = (A.filter fun x => l < height x).getLastD 0 := by
  have hlength := h.length_eq
  rw [horder, List.length_append] at hlength
  have hpos := h.pos
  obtain ⟨hend, hprev⟩ := h.descend horder hA hB (U := []) (W := A) rfl
    (fun hne => absurd rfl hne) (show A.length + (s.maxHeight - 1) < s.keys.length + s.maxHeight by omega)
    (fun _ => 0)
  refine ⟨hend, fun l hl => ?_⟩
  have hl' := hprev l
  rwa [if_pos (by omega)] at hl'

end

theorem getElem?_keys (i : Nat) : (order.filterMap s.key)[i]? = order[i]?.bind s.key :=
  getElem?_filterMap (fun _ hx => h.exists_key hx) i

theorem keys_perm : (order.filterMap s.key).Perm s.keys := by
  have hrange : (List.range' 1 s.keys.length).filterMap s.key = s.keys := by
    refine List.ext_getElem? fun i => ?_
    rw [getElem?_filterMap fun x hx => h.exists_key (h.nodes.mem_iff.mpr hx)]
    by_cases hi : i < s.keys.length
    · rw [List.getElem?_range' hi]
      show s.key (1 + 1 * i) = s.keys[i]?
      rw [Nat.one_mul, Nat.add_comm]
      rfl
    · rw [List.getElem?_eq_none (by rw [List.length_range']; omega),
        List.getElem?_eq_none (not_lt.mp hi)]
      rfl
  exact hrange ▸ h.nodes.filterMap s.key

section

variable (hcompare : Compares compare rank) {target : E} {k : Nat}
  (hk : Machine.CutAt rank (order.filterMap s.key) (rank target) k)
include hcompare hk

theorem goesOn_iff :
    (∀ x ∈ order.take k, (s.key x).any (fun key => decide (compare key target = .lt)) = true) ∧
      ∀ x ∈ order.drop k, (s.key x).any (fun key => decide (compare key target = .lt)) = false := by
  constructor
  · intro x hx
    obtain ⟨a, ha⟩ := h.exists_key (List.mem_of_mem_take hx)
    obtain ⟨i, hi, rfl⟩ := List.getElem_of_mem hx
    rw [List.length_take] at hi
    rw [List.getElem_take] at ha ⊢
    rw [ha]
    refine decide_eq_true (hcompare.lt_iff.mpr (hk.lt i a ?_ (by omega)))
    rw [h.getElem?_keys, List.getElem?_eq_getElem (by omega), bind_some, ha]
  · intro x hx
    obtain ⟨a, ha⟩ := h.exists_key (List.mem_of_mem_drop hx)
    obtain ⟨i, hi, rfl⟩ := List.getElem_of_mem hx
    rw [List.length_drop] at hi
    rw [List.getElem_drop] at ha ⊢
    rw [ha]
    refine decide_eq_false fun hlt => ?_
    refine absurd (hcompare.lt_iff.mp hlt) (not_lt.mpr (hk.ge (k + i) a ?_ (by omega)))
    rw [h.getElem?_keys, List.getElem?_eq_getElem (by omega), bind_some, ha]

/-! ## Insertion -/

theorem prev_eq (level : Nat) :
    (if s.maxHeight ≤ level then 0 else (s.findGreaterOrEqual compare target).2 level) =
      ((order.take k).filter fun x => level < height x).getLastD 0 := by
  obtain ⟨hbefore, hafter⟩ := h.goesOn_iff hcompare hk
  split_ifs with hlevel
  · have hnone : (order.take k).filter (fun x => level < height x) = [] := by
      refine List.filter_eq_nil_iff.mpr fun x hx => ?_
      have := h.height_le x (List.mem_of_mem_take hx)
      rw [decide_eq_true_eq]
      omega
    rw [hnone]
    rfl
  · exact (h.search (List.take_append_drop k order).symm hbefore hafter).2 level (not_le.mp hlevel)

end

theorem key_insert {target : E} {newHeight x : Nat} (hx : x ∈ order) :
    (s.insert compare target newHeight).key x = s.key x := by
  obtain ⟨hpos, hle⟩ := h.mem_iff.mp hx
  obtain ⟨i, rfl⟩ : ∃ i, x = i + 1 := ⟨x - 1, by omega⟩
  exact List.getElem?_append_left hle

omit h in
theorem key_insert_new (s : SkipList E) (compare : E → E → Ordering) (target : E) (newHeight : Nat) :
    (s.insert compare target newHeight).key (s.keys.length + 1) = some target :=
  List.getElem?_concat_length

omit h in
theorem next_insert (s : SkipList E) (compare : E → E → Ordering) (target : E)
    (newHeight level : Nat) : (s.insert compare target newHeight).next level =
      let p := if s.maxHeight ≤ level ∧ level < newHeight then 0
        else (s.findGreaterOrEqual compare target).2 level
      if level < newHeight then
        Function.update (Function.update (s.next level) (s.keys.length + 1) (s.next level p)) p
          (some (s.keys.length + 1))
      else s.next level := rfl

theorem new_not_mem : s.keys.length + 1 ∉ order := by
  intro hmem
  have := (h.mem_iff.mp hmem).2
  omega

theorem links_insert (hcompare : Compares compare rank) {target : E} {k : Nat}
    (hk : Machine.CutAt rank (order.filterMap s.key) (rank target) k) (newHeight level : Nat) :
    Links ((s.insert compare target newHeight).next level) 0
      ((order.take k ++ (s.keys.length + 1) :: order.drop k).filter fun x =>
        level < Function.update height (s.keys.length + 1) newHeight x) := by
  have hold : ∀ l : List Nat, l ⊆ order →
      (l.filter fun x => level < Function.update height (s.keys.length + 1) newHeight x) =
        l.filter fun x => level < height x := by
    intro l hl
    refine List.filter_congr fun x hx => ?_
    have hne : x ≠ s.keys.length + 1 := fun heq => h.new_not_mem (heq ▸ hl hx)
    rw [update_of_ne hne]
  have hlinks := h.links level
  rw [← List.take_append_drop k order, List.filter_append] at hlinks
  rw [List.filter_append, hold _ (List.take_subset k order), List.filter_cons,
    hold _ (List.drop_subset k order), update_self]
  rw [next_insert]
  by_cases hlevel : level < newHeight
  · have hand : (s.maxHeight ≤ level ∧ level < newHeight) = (s.maxHeight ≤ level) :=
      propext (and_iff_left hlevel)
    simp only [hand]
    rw [if_pos hlevel, if_pos (decide_eq_true hlevel), h.prev_eq hcompare hk level]
    have hsub : ((order.take k).filter (fun x => level < height x) ++
        (order.drop k).filter fun x => level < height x).Sublist order := by
      rw [← List.filter_append, List.take_append_drop]
      exact List.filter_sublist
    refine hlinks.insert (List.nodup_cons.mpr ⟨?_, h.nodup.sublist hsub⟩) ?_
    · intro hmem
      exact absurd (h.mem_iff.mp (hsub.subset hmem)).1 (by decide)
    · intro hmem
      obtain heq | hmem := List.mem_cons.mp hmem
      · exact absurd heq (Nat.succ_ne_zero _)
      · exact h.new_not_mem (hsub.subset hmem)
  · rw [if_neg hlevel, if_neg (by rw [decide_eq_true_eq]; exact hlevel)]
    exact hlinks

theorem nodes_insert (k : Nat) : (order.take k ++ (s.keys.length + 1) :: order.drop k).Perm
    (List.range' 1 (s.keys.length + 1)) := by
  rw [List.range'_1_concat, Nat.add_comm 1]
  refine List.perm_middle.trans ?_
  rw [List.take_append_drop]
  exact (h.nodes.cons _).trans (List.perm_append_singleton _ _).symm

theorem sorted_insert {target : E} {k newHeight : Nat}
    (hk : Machine.CutAt rank (order.filterMap s.key) (rank target) k)
    (hnew : ∀ e ∈ s.keys, rank e ≠ rank target) :
    Strict rank ((order.take k ++ (s.keys.length + 1) :: order.drop k).filterMap
      (s.insert compare target newHeight).key) := by
  have hold : ∀ l : List Nat, l ⊆ order →
      l.filterMap (s.insert compare target newHeight).key = l.filterMap s.key := by
    intro l hl
    exact List.filterMap_congr fun x hx => h.key_insert (hl hx)
  have hkeys := fun x hx => h.exists_key (x := x) hx
  have hsorted := h.sorted
  rw [← List.take_append_drop k (order.filterMap s.key)] at hsorted
  obtain ⟨htake, hdrop, hcross⟩ := List.pairwise_append.mp hsorted
  have hafter : ∀ e ∈ (order.filterMap s.key).drop k, rank target < rank e := by
    intro e he
    have hmem := h.keys_perm.mem_iff.mp (List.mem_of_mem_drop he)
    exact lt_of_le_of_ne (hk.le_of_mem_drop e he) (hnew e hmem).symm
  rw [List.filterMap_append, hold _ (List.take_subset k order),
    List.filterMap_cons_some (key_insert_new s compare target newHeight),
    hold _ (List.drop_subset k order), filterMap_take hkeys, filterMap_drop hkeys]
  refine List.pairwise_append.mpr ⟨htake, List.pairwise_cons.mpr ⟨hafter, hdrop⟩, ?_⟩
  intro a ha b hb
  obtain rfl | hb := List.mem_cons.mp hb
  · exact hk.lt_of_mem_take a ha
  · exact hcross a ha b hb

/-- **Insertion** with any height keeps the nodes in order. -/
theorem insert (hcompare : Compares compare rank) {target : E} {newHeight : Nat}
    (hpos : 0 < newHeight) (hnew : ∀ e ∈ s.keys, rank e ≠ rank target) :
    ∃ order', Ordered (s.insert compare target newHeight) rank
      (Function.update height (s.keys.length + 1) newHeight) order' := by
  obtain ⟨k, hk⟩ := Machine.exists_cutAt h.sorted (rank target)
  have hmem : ∀ x ∈ order.take k ++ (s.keys.length + 1) :: order.drop k,
      x = s.keys.length + 1 ∨ x ∈ order := by
    intro x hx
    rw [List.mem_append, List.mem_cons] at hx
    exact hx.elim (fun hx => .inr (List.mem_of_mem_take hx))
      (fun hx => hx.imp id List.mem_of_mem_drop)
  have hmax : (s.insert compare target newHeight).maxHeight = max s.maxHeight newHeight := by
    show (if s.maxHeight < newHeight then newHeight else s.maxHeight) = _
    split_ifs <;> omega
  have hheight : ∀ x ∈ order,
      Function.update height (s.keys.length + 1) newHeight x = height x := by
    intro x hx
    have hne : x ≠ s.keys.length + 1 := fun heq => h.new_not_mem (heq ▸ hx)
    rw [update_of_ne hne]
  refine ⟨order.take k ++ (s.keys.length + 1) :: order.drop k,
    h.links_insert hcompare hk newHeight, ?_, h.sorted_insert hk hnew, ?_, ?_, ?_⟩
  · show List.Perm _ (List.range' 1 (s.keys ++ [target]).length)
    rw [List.length_append]
    exact h.nodes_insert k
  · intro x hx
    obtain rfl | hx := hmem x hx
    · rwa [update_self]
    · rw [hheight x hx]
      exact h.height_pos x hx
  · intro x hx
    rw [hmax]
    obtain rfl | hx := hmem x hx
    · rw [update_self]
      exact le_max_right _ _
    · rw [hheight x hx]
      exact (h.height_le x hx).trans (le_max_left _ _)
  · rw [hmax]
    exact lt_max_of_lt_left h.pos

/-! ## The iterator -/

theorem filter_zero {l : List Nat} (hl : l ⊆ order) : (l.filter fun x => 0 < height x) = l :=
  List.filter_eq_self.mpr fun x hx => decide_eq_true (h.height_pos x (hl hx))

theorem next_zero (k : Nat) : s.next 0 ((order.take k).getLastD 0) = order[k]? := by
  have hhigh : order.take k ≠ [] → 0 < height ((order.take k).getLastD 0) := by
    intro hne
    refine h.height_pos _ (List.mem_of_mem_take (i := k) ?_)
    rw [List.getLastD_eq_getLast?, List.getLast?_eq_some_getLast hne]
    exact List.getLast_mem hne
  rw [h.next_eq (List.take_append_drop k order).symm hhigh, h.filter_zero (List.drop_subset k order),
    List.head?_drop]

theorem nodeOf_take {k : Nat} (hk : k < order.length) :
    nodeOf ((order.take (k + 1)).getLastD 0) = order[k]? := by
  rw [List.take_add_one, List.getElem?_eq_getElem hk, toList_some, List.getLastD_concat]
  have hpos := (h.mem_iff.mp (List.getElem_mem hk)).1
  exact if_neg (by omega)

section

variable (hcompare : Compares compare rank) {target : E} {k : Nat}
  (hk : Machine.CutAt rank (order.filterMap s.key) (rank target) k)
include hcompare hk

theorem findLessThan_eq :
    s.findLessThan compare target = (order.take k).getLastD 0 := by
  obtain ⟨hbefore, hafter⟩ := h.goesOn_iff hcompare hk
  exact (h.search (List.take_append_drop k order).symm hbefore hafter).1

theorem findGreaterOrEqual_eq :
    (s.findGreaterOrEqual compare target).1 = order[k]? := by
  rw [← h.next_zero k, ← h.findLessThan_eq hcompare hk]
  rfl

end

theorem findLast_eq : s.findLast = order.getLastD 0 := by
  refine (h.search (List.append_nil order).symm ?_ fun x hx => absurd hx List.not_mem_nil).1
  intro x hx
  obtain ⟨a, ha⟩ := h.exists_key hx
  rw [ha]
  rfl

theorem length_keys : (order.filterMap s.key).length = order.length :=
  h.keys_perm.length_eq.trans h.length_eq.symm

theorem prev_eq_nodeOf (hcompare : Compares compare rank) {i : Nat} (hi : i < order.length) :
    ((order[i]?).bind s.key).bind (fun k => nodeOf (s.findLessThan compare k)) =
      nodeOf ((order.take i).getLastD 0) := by
  obtain ⟨a, ha⟩ := h.exists_key (List.getElem_mem hi)
  have hget : (order.filterMap s.key)[i]? = some a := by
    rw [h.getElem?_keys, List.getElem?_eq_getElem hi, bind_some, ha]
  rw [List.getElem?_eq_getElem hi, bind_some, ha, bind_some,
    h.findLessThan_eq hcompare (Machine.cutAt_getElem h.sorted hget)]

/-- **The iterator** is a cursor over the keys in order. -/
theorem faithful {ε : Type*} (hcompare : Compares compare rank) :
    (machine compare s (ε := ε)).Faithful rank rank (fun _ => True) (order.filterMap s.key)
      (fun node i => node = order[i]?) where
  current := by
    rintro _ i rfl
    exact (h.getElem?_keys i).symm
  error := fun _ => rfl
  seekToFirst := fun _ => h.next_zero 0
  seekToLast := by
    rintro _ i rfl
    show nodeOf s.findLast = _
    rw [h.findLast_eq, h.length_keys]
    obtain hzero | hpos := Nat.eq_zero_or_pos order.length
    · rw [List.length_eq_zero_iff.mp hzero]
      rfl
    · have hlast := h.nodeOf_take (k := order.length - 1) (by omega)
      rwa [Nat.sub_add_cancel hpos, List.take_length] at hlast
  seek := fun _ _ hk => h.findGreaterOrEqual_eq hcompare hk
  next := by
    rintro _ i rfl hi
    rw [h.length_keys] at hi
    show (order[i]?).bind (s.next 0) = _
    rw [← h.next_zero (i + 1), List.take_add_one, List.getElem?_eq_getElem hi, toList_some,
      List.getLastD_concat, bind_some]
  prev_zero := by
    rintro _ rfl hpos
    rw [h.length_keys] at hpos ⊢
    rw [List.getElem?_eq_none (le_refl _)]
    exact h.prev_eq_nodeOf hcompare hpos
  prev_succ := by
    rintro _ i rfl hi
    rw [h.length_keys] at hi
    exact (h.prev_eq_nodeOf hcompare hi).trans (h.nodeOf_take (by omega))

theorem next_of_maxHeight_le {level : Nat} (hlevel : s.maxHeight ≤ level) : s.next level 0 = none := by
  have hnone : order.filter (fun x => level < height x) = [] := by
    refine List.filter_eq_nil_iff.mpr fun x hx hlt => ?_
    have := h.height_le x hx
    rw [decide_eq_true_eq] at hlt
    omega
  have hlinks := h.links level
  rw [hnone] at hlinks
  exact hlinks

theorem map_key : order.map s.key = (order.filterMap s.key).map some := by
  refine List.ext_getElem? fun i => ?_
  rw [List.getElem?_map, List.getElem?_map, h.getElem?_keys]
  cases hi : order[i]? with
  | none => rfl
  | some x =>
    obtain ⟨k, hk⟩ := h.exists_key (List.mem_of_getElem? hi)
    rw [bind_some, map_some, hk, map_some]

theorem contains_iff (hcompare : Compares compare rank) {target : E} :
    s.contains compare target = true ↔ ∃ e ∈ s.keys, rank e = rank target := by
  obtain ⟨k, hk⟩ := Machine.exists_cutAt h.sorted (rank target)
  unfold contains
  rw [h.findGreaterOrEqual_eq hcompare hk, ← h.getElem?_keys, Option.any_eq_true]
  constructor
  · rintro ⟨e, he, heq⟩
    rw [decide_eq_true_eq, hcompare.eq_iff] at heq
    exact ⟨e, h.keys_perm.mem_iff.mp (List.mem_of_getElem? he), heq.symm⟩
  · rintro ⟨e, he, heq⟩
    obtain ⟨i, hi⟩ := List.getElem?_of_mem (h.keys_perm.mem_iff.mpr he)
    -- an equal key is not before the cut, and none that is before it comes after the cut
    have hik : k ≤ i := by
      by_contra hlt
      exact (hk.lt i e hi (not_le.mp hlt)).ne heq
    have hki : i ≤ k := by
      by_contra hlt
      obtain ⟨hilen, rfl⟩ := List.getElem?_eq_some_iff.mp hi
      have hklt := List.pairwise_iff_getElem.mp h.sorted k i (by omega) hilen (not_le.mp hlt)
      exact absurd (hk.ge k _ (List.getElem?_eq_getElem (by omega)) (le_refl _))
        (not_le.mpr (heq ▸ hklt))
    exact ⟨e, le_antisymm hki hik ▸ hi, decide_eq_true (hcompare.eq_iff.mpr heq.symm)⟩

end Ordered

/-! ## Any insertions -/

/-- Calls of `Insert`, with their heights. -/
def build (compare : E → E → Ordering) (inserts : List (E × Nat)) : SkipList E :=
  inserts.foldl (fun s a => s.insert compare a.1 a.2) init

def heightOf (inserts : List (E × Nat)) : Nat → Nat
  | 0 => 0
  | i + 1 => (inserts[i]?).elim 0 Prod.snd

theorem keys_build (compare : E → E → Ordering) (inserts : List (E × Nat)) :
    (build compare inserts).keys = inserts.map Prod.fst := by
  induction inserts using List.reverseRecOn with
  | nil => rfl
  | append_singleton inserts a ih =>
    unfold build at ih ⊢
    rw [List.foldl_append, List.map_append, ← ih]
    rfl

theorem heightOf_append (inserts : List (E × Nat)) (a : E × Nat) :
    heightOf (inserts ++ [a]) = Function.update (heightOf inserts) (inserts.length + 1) a.2 := by
  funext x
  cases x with
  | zero => rfl
  | succ i =>
    rcases lt_trichotomy i inserts.length with hlt | rfl | hgt
    · rw [update_of_ne (by omega), heightOf, heightOf, List.getElem?_append_left hlt]
    · rw [update_self, heightOf, List.getElem?_concat_length]
      rfl
    · rw [update_of_ne (by omega), heightOf, heightOf, List.getElem?_eq_none (by simpa),
        List.getElem?_eq_none (by omega)]

theorem ordered_build (hcompare : Compares compare rank) {inserts : List (E × Nat)}
    (hheight : ∀ a ∈ inserts, 0 < a.2)
    (hdistinct : inserts.Pairwise fun a b => rank a.1 ≠ rank b.1) :
    ∃ order, Ordered (build compare inserts) rank (heightOf inserts) order := by
  induction inserts using List.reverseRecOn with
  | nil => exact ⟨[], ordered_init _ _⟩
  | append_singleton inserts a ih =>
    obtain ⟨hrest, -, hnew⟩ := List.pairwise_append.mp hdistinct
    obtain ⟨order, h⟩ := ih (fun b hb => hheight b (List.mem_append_left _ hb)) hrest
    have hkeys : ∀ e ∈ (build compare inserts).keys, rank e ≠ rank a.1 := by
      rw [keys_build]
      intro e he
      obtain ⟨b, hb, rfl⟩ := List.mem_map.mp he
      exact hnew b hb a List.mem_cons_self
    obtain ⟨order', h'⟩ :=
      h.insert hcompare (hheight a (List.mem_append_right _ List.mem_cons_self)) hkeys
    rw [keys_build, List.length_map, ← heightOf_append] at h'
    refine ⟨order', ?_⟩
    unfold build
    rw [List.foldl_append]
    exact h'

/-- **The representation of a skip list**: the nodes in the order of their keys are linked on every
    level, as far as they are high enough, and every search and every run of the iterator goes by
    the sorted list of the keys. -/
theorem skipList_representation (hcompare : Compares compare rank) {inserts : List (E × Nat)}
    (hheight : ∀ a ∈ inserts, 1 ≤ a.2 ∧ a.2 ≤ kMaxHeight)
    (hdistinct : inserts.Pairwise fun a b => rank a.1 ≠ rank b.1) :
    (build compare inserts).keys = inserts.map Prod.fst ∧
    ∃ (order : List Nat) (sorted : List E),
      sorted.Perm (inserts.map Prod.fst) ∧ Strict rank sorted ∧
      order.map (build compare inserts).key = sorted.map some ∧
      Links ((build compare inserts).next 0) 0 order ∧
      (∀ level, Links ((build compare inserts).next level) 0
        (order.filter fun x => level < heightOf inserts x)) ∧
      (∀ level, (build compare inserts).maxHeight ≤ level →
        (build compare inserts).next level 0 = none) ∧
      (∀ target, ∃ k, Machine.CutAt rank sorted (rank target) k ∧
        ((build compare inserts).findGreaterOrEqual compare target).1 = order[k]? ∧
        (build compare inserts).findLessThan compare target = (order.take k).getLastD 0 ∧
        ((build compare inserts).contains compare target = true ↔
          ∃ e ∈ sorted, rank e = rank target)) ∧
      (build compare inserts).findLast = order.getLastD 0 ∧
      ∀ calls : List (Cursor.Call E),
        run (machine compare (build compare inserts) (ε := Empty)).step
            (machine compare (build compare inserts) (ε := Empty)).observe none calls =
          run (fun c call => Cursor.step rank sorted c (Machine.rankCall rank call))
            (fun c => (c.current, none)) .invalid calls := by
  obtain ⟨order, h⟩ := ordered_build hcompare (fun a ha => (hheight a ha).1) hdistinct
  have hperm := h.keys_perm
  refine ⟨keys_build compare inserts, order, order.filterMap (build compare inserts).key,
    keys_build compare inserts ▸ hperm, h.sorted, h.map_key, ?_, h.links,
    fun _ => h.next_of_maxHeight_le, fun target => ?_, h.findLast_eq, fun calls => ?_⟩
  · have hzero := h.links 0
    rwa [h.filter_zero (List.Subset.refl order)] at hzero
  · obtain ⟨k, hk⟩ := Machine.exists_cutAt h.sorted (rank target)
    refine ⟨k, hk, h.findGreaterOrEqual_eq hcompare hk, h.findLessThan_eq hcompare hk, ?_⟩
    rw [h.contains_iff hcompare]
    exact exists_congr fun e => and_congr_left fun _ => hperm.mem_iff.symm
  · have hstart : none = order[(order.filterMap (build compare inserts).key).length]? := by
      rw [h.length_keys, List.getElem?_eq_none (le_refl _)]
    have hrun := (h.faithful (ε := Empty) hcompare).run_eq h.sorted hstart
      fun call (_ : call ∈ calls) => by cases call <;> trivial
    rwa [nth_of_le (le_refl _)] at hrun

theorem skipList_representation_three : ∃ order : List Nat,
    Links ((build Bytewise.compare [([98], 2), ([97], 1), ([99], 12)]).next 1) 0
      (order.filter fun x => 1 < heightOf [(([98] : Bytes), 2), ([97], 1), ([99], 12)] x) ∧
    (build Bytewise.compare [([98], 2), ([97], 1), ([99], 12)]).next 12 0 = none := by
  have hheight : ∀ a ∈ [(([98] : Bytes), 2), ([97], 1), ([99], 12)], 1 ≤ a.2 ∧ a.2 ≤ kMaxHeight := by
    decide
  obtain ⟨-, order, -, -, -, -, -, hlinks, habove, -⟩ :=
    skipList_representation Bytewise.compares hheight (by decide)
  exact ⟨order, hlinks 1, habove 12 (by decide)⟩

end SkipList

end LevelDB
