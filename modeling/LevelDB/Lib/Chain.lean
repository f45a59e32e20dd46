/-
  Linked lists, over any type of nodes.

  `Links next x l` says that the nodes after `x` are those of `l`, one after the other. Elements
  are put into such a list by two writes (`Links.insert`).

  `Path next prev x l y` says that both ways between `x` and `y` lead through the nodes of `l`; a
  circular list is a path from its head to its head. `walk` follows the links of a circle.
-/
import Mathlib.Data.List.Basic
import Mathlib.Logic.Function.Basic
import Mathlib.Tactic.Common

namespace Chain

open List Function

variable {α : Type*}

/-- From `x` on, `next` leads through the nodes of the list and then ends. -/
def Links (next : α → Option α) : α → List α → Prop
  | x, [] => next x = none
  | x, y :: l => next x = some y ∧ Links next y l

theorem Links.next_eq {next : α → Option α} {x : α} {l : List α} (h : Links next x l) :
    next x = l.head? := by
  cases l with
  | nil => exact h
  | cons y l => exact h.1

theorem Links.append_right {next : α → Option α} {x : α} {a b : List α}
    (h : Links next x (a ++ b)) : Links next (a.getLastD x) b := by
  induction a generalizing x with
  | nil => exact h
  | cons y a ih =>
    rw [getLastD_cons]
    exact ih h.2

theorem Links.congr {next next' : α → Option α} {x : α} {l : List α} (h : Links next x l)
    (heq : ∀ y ∈ x :: l, next' y = next y) : Links next' x l := by
  induction l generalizing x with
  | nil => exact (heq x mem_cons_self).trans h
  | cons y l ih =>
    refine ⟨(heq x mem_cons_self).trans h.1, ih h.2 ?_⟩
    intro z hz
    exact heq z (mem_cons_of_mem _ hz)

theorem Links.insert [DecidableEq α] {next : α → Option α} {x n : α} {a b : List α}
    (h : Links next x (a ++ b)) (hnodup : (x :: (a ++ b)).Nodup) (hn : n ∉ x :: (a ++ b)) :
    Links (Function.update (Function.update next n (next (a.getLastD x))) (a.getLastD x) (some n)) x
      (a ++ n :: b) := by
  induction a generalizing x with
  | nil =>
    rw [nil_append] at h hnodup hn ⊢
    rw [getLastD_nil]
    have hnx : n ≠ x := fun heq => hn (heq ▸ mem_cons_self)
    refine ⟨by rw [update_self], ?_⟩
    have hold : ∀ y ∈ b, Function.update (Function.update next n (next x)) x (some n) y = next y := by
      intro y hy
      have hyx : y ≠ x := fun heq => (nodup_cons.mp hnodup).1 (heq ▸ hy)
      have hyn : y ≠ n := fun heq => hn (mem_cons_of_mem _ (heq ▸ hy))
      rw [update_of_ne hyx, update_of_ne hyn]
    have hnext : Function.update (Function.update next n (next x)) x (some n) n = next x := by
      rw [update_of_ne hnx, update_self]
    cases b with
    | nil => exact hnext.trans h
    | cons y b => exact ⟨hnext.trans h.1, h.2.congr hold⟩
  | cons y a ih =>
    obtain ⟨hx, hrest⟩ := nodup_cons.mp hnodup
    have hlast : a.getLastD y ∈ y :: a := getLastD_mem_cons
    have hx_last : x ≠ a.getLastD y := fun heq =>
      hx (mem_append_left b (heq ▸ hlast))
    have hx_new : x ≠ n := fun heq => hn (heq ▸ mem_cons_self)
    rw [getLastD_cons]
    refine ⟨?_, ih h.2 hrest fun hmem => hn (mem_cons_of_mem _ hmem)⟩
    rw [update_of_ne hx_last, update_of_ne hx_new]
    exact h.1

/-! ## Doubly linked lists -/

/-- Between `x` and `y` stand the nodes of the list, linked in both directions. -/
def Path (next prev : α → α) : α → List α → α → Prop
  | x, [], y => next x = y ∧ prev y = x
  | x, a :: l, y => (next x = a ∧ prev a = x) ∧ Path next prev a l y

/-- The nodes that are met from `x` on, until the head of the circle comes. -/
def walk [DecidableEq α] (link : α → α) (head : α) : Nat → α → Option (List α)
  | 0, _ => none
  | n + 1, x => if link x = head then some [] else (walk link head n (link x)).map (link x :: ·)

namespace Path

variable {next prev next' prev' : α → α} {x y n : α} {l : List α}

theorem prev_mem (h : Path next prev x l y) : prev y ∈ x :: l := by
  induction l generalizing x with
  | nil =>
    rw [h.2]
    exact mem_cons_self
  | cons a l ih => exact mem_cons_of_mem _ (ih h.2)

theorem prev_eq (h : Path next prev x l y) : prev y = l.getLastD x := by
  induction l generalizing x with
  | nil => exact h.2
  | cons a l ih => exact (ih h.2).trans getLastD_cons.symm

theorem next_eq (h : Path next prev x l y) : next x = l.headD y := by
  cases l with
  | nil => exact h.1
  | cons a l => exact h.1.1

theorem append_iff {a b : List α} :
    Path next prev x (a ++ n :: b) y ↔ Path next prev x a n ∧ Path next prev n b y := by
  induction a generalizing x with
  | nil => exact Iff.rfl
  | cons c a ih => exact (and_congr_right' ih).trans and_assoc.symm

theorem reverse (h : Path next prev x l y) : Path prev next y l.reverse x := by
  induction l generalizing x with
  | nil => exact ⟨h.2, h.1⟩
  | cons a l ih =>
    rw [reverse_cons]
    exact append_iff.mpr ⟨ih h.2, h.1.2, h.1.1⟩

theorem congr (h : Path next prev x l y) (hnext : ∀ z ∈ x :: l, next' z = next z)
    (hprev : ∀ z ∈ l ++ [y], prev' z = prev z) : Path next' prev' x l y := by
  induction l generalizing x with
  | nil =>
    exact ⟨(hnext x mem_cons_self).trans h.1, (hprev y mem_cons_self).trans h.2⟩
  | cons a l ih =>
    refine ⟨⟨(hnext x mem_cons_self).trans h.1.1, (hprev a mem_cons_self).trans h.1.2⟩, ih h.2 ?_ ?_⟩
    · exact fun z hz => hnext z (mem_cons_of_mem _ hz)
    · exact fun z hz => hprev z (mem_cons_of_mem _ hz)

variable [DecidableEq α]

/-- A new node between the last one and `y`. -/
theorem snoc (h : Path next prev x l y) (hnodup : (x :: l).Nodup) (hy : y ∉ l) (hx : n ≠ x)
    (hl : n ∉ l) (hn : n ≠ y) :
    Path (update (update next n y) (prev y) n) (update (update prev n (prev y)) y n) x (l ++ [n])
      y := by
  induction l generalizing x with
  | nil =>
    refine ⟨⟨?_, ?_⟩, ?_, ?_⟩
    · rw [h.2, update_self]
    · rw [update_of_ne hn, update_self, h.2]
    · rw [h.2, update_of_ne hx, update_self]
    · rw [update_self]
  | cons a l ih =>
    obtain ⟨hxl, hnodup'⟩ := nodup_cons.mp hnodup
    obtain ⟨hya, hyl⟩ := ne_and_not_mem_of_not_mem_cons hy
    obtain ⟨hna, hnl⟩ := ne_and_not_mem_of_not_mem_cons hl
    have hlast : x ≠ prev y := fun heq => hxl (heq ▸ h.2.prev_mem)
    refine ⟨⟨?_, ?_⟩, ih h.2 hnodup' hyl hna hnl⟩
    · rw [update_of_ne hlast, update_of_ne hx.symm]
      exact h.1.1
    · rw [update_of_ne hya.symm, update_of_ne hna.symm]
      exact h.1.2

/-- The neighbours of a node are linked with each other. -/
theorem remove {a b : List α} (h : Path next prev x (a ++ n :: b) y)
    (hnodup : (x :: (a ++ n :: b)).Nodup) (hy : y ∉ a ++ n :: b) :
    Path (update next (prev n) (next n)) (update prev (next n) (prev n)) x (a ++ b) y := by
  induction a generalizing x with
  | nil =>
    obtain ⟨⟨hn, hp⟩, hrest⟩ := h
    rw [nil_append] at hnodup hy ⊢
    rw [hp]
    cases b with
    | nil =>
      rw [hrest.1]
      exact ⟨update_self _ _ _, update_self _ _ _⟩
    | cons c b =>
      obtain ⟨hx, hnodup'⟩ := nodup_cons.mp hnodup
      have hc := (nodup_cons.mp (nodup_cons.mp hnodup').2).1
      rw [hrest.1.1]
      refine ⟨⟨update_self _ _ _, update_self _ _ _⟩, hrest.2.congr ?_ ?_⟩
      · intro z hz
        refine update_of_ne ?_ _ _
        rintro rfl
        exact hx (mem_cons_of_mem _ hz)
      · intro z hz
        refine update_of_ne ?_ _ _
        rintro rfl
        obtain hz | hz := mem_append.mp hz
        · exact hc hz
        · exact hy (mem_cons_of_mem _ (mem_singleton.mp hz ▸ mem_cons_self))
  | cons d a ih =>
    obtain ⟨hx, hnodup'⟩ := nodup_cons.mp hnodup
    obtain ⟨hyd, hy'⟩ := ne_and_not_mem_of_not_mem_cons hy
    obtain ⟨hleft, hright⟩ := append_iff.mp h.2
    have hprev : x ≠ prev n := fun heq => hx (mem_append_left _ (heq ▸ hleft.prev_mem))
    have hnext : d ≠ next n := by
      rw [hright.next_eq]
      rintro rfl
      cases b with
      | nil => exact hyd rfl
      | cons c b => exact (nodup_cons.mp hnodup').1 (mem_append_right _ (mem_cons_of_mem _ mem_cons_self))
    refine ⟨⟨?_, ?_⟩, ih h.2 hnodup' hy'⟩
    · rw [update_of_ne hprev]
      exact h.1.1
    · rw [update_of_ne hnext]
      exact h.1.2

theorem walk_eq (h : Path next prev x l y) (hy : y ∉ l) :
    walk next y (l.length + 1) x = some l := by
  induction l generalizing x with
  | nil => exact if_pos h.1
  | cons a l ih =>
    obtain ⟨hya, hyl⟩ := ne_and_not_mem_of_not_mem_cons hy
    rw [length_cons, walk, h.1.1, if_neg hya.symm, ih h.2 hyl, Option.map_some]

end Path

end Chain
