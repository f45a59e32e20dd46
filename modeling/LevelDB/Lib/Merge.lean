/-
  Merging any number of sorted lists, over any type of elements with a key.

  `pick` takes the smallest head, the leftmost one on ties, and `mergeAll` repeats it.
  The result has the elements of all lists (`mergeAll_perm`) and is sorted when they are
  (`mergeAll_sorted`).

  Nothing here names a particular iterator.
-/
import Mathlib.Data.List.Flatten
import Mathlib.Data.List.Perm.Basic
import Mathlib.Order.Basic
import Mathlib.Order.Lattice
import Mathlib.Tactic.Common

namespace Merge

open List

variable {E κ : Type*} [LinearOrder κ]

/-- The smallest head, and the lists after taking it. -/
def pick (key : E → κ) : List (List E) → Option (E × List (List E))
  | [] => none
  | [] :: rest => (pick key rest).map fun p => (p.1, [] :: p.2)
  | (x :: xs) :: rest =>
    match pick key rest with
    | none => some (x, xs :: rest)
    | some (e, rest') =>
      if key e < key x then some (e, (x :: xs) :: rest') else some (x, xs :: rest)

def mergeLoop (key : E → κ) : Nat → List (List E) → List E
  | 0, _ => []
  | fuel + 1, children =>
    match pick key children with
    | none => []
    | some (e, rest) => e :: mergeLoop key fuel rest

/-- The merge of all lists; the number of elements is enough fuel. -/
def mergeAll (key : E → κ) (children : List (List E)) : List E :=
  mergeLoop key children.flatten.length children

variable {key : E → κ}

theorem pick_eq_none {children : List (List E)} (h : pick key children = none) :
    children.flatten = [] := by
  induction children with
  | nil => rfl
  | cons l rest ih =>
    cases l with
    | nil => exact ih (by simpa [pick] using h)
    | cons x xs =>
      unfold pick at h
      cases hp : pick key rest with
      | none => simp [hp] at h
      | some p =>
        simp only [hp] at h
        split_ifs at h

/-- `pick` takes one element, no larger than any other. -/
theorem pick_eq_some {children rest : List (List E)} {e : E} (h : pick key children = some (e, rest))
    (hs : ∀ l ∈ children, l.Pairwise fun a b => key a ≤ key b) :
    children.flatten.Perm (e :: rest.flatten) ∧ (∀ x ∈ children.flatten, key e ≤ key x) ∧
      ∀ l ∈ rest, l.Pairwise fun a b => key a ≤ key b := by
  induction children generalizing e rest with
  | nil => cases h
  | cons l children ih =>
    have hs' := fun l hl => hs l (mem_cons_of_mem _ hl)
    cases l with
    | nil =>
      unfold pick at h
      obtain ⟨⟨e', rest'⟩, hp, heq⟩ := Option.map_eq_some_iff.mp h
      obtain ⟨rfl, rfl⟩ := Prod.mk.inj heq
      obtain ⟨hperm, hle, hrest⟩ := ih hp hs'
      refine ⟨by simpa using hperm, by simpa using hle, ?_⟩
      intro l hl
      obtain rfl | hl := mem_cons.mp hl
      · exact List.Pairwise.nil
      · exact hrest l hl
    | cons x xs =>
      obtain ⟨hx, hxs⟩ := pairwise_cons.mp (hs (x :: xs) (by simp))
      have hkeep : ∀ l ∈ xs :: children, l.Pairwise fun a b => key a ≤ key b := by
        intro l hl
        obtain rfl | hl := mem_cons.mp hl
        · exact hxs
        · exact hs' l hl
      unfold pick at h
      cases hp : pick key children with
      | none =>
        simp only [hp, Option.some.injEq, Prod.mk.injEq] at h
        obtain ⟨rfl, rfl⟩ := h
        refine ⟨by simp, ?_, hkeep⟩
        intro y hy
        rw [flatten_cons, pick_eq_none hp, append_nil] at hy
        obtain rfl | hy := mem_cons.mp hy
        · exact le_refl _
        · exact hx y hy
      | some p =>
        obtain ⟨e', rest'⟩ := p
        obtain ⟨hperm, hle, hrest⟩ := ih hp hs'
        simp only [hp] at h
        split_ifs at h with hlt
        · obtain ⟨rfl, rfl⟩ := Prod.mk.inj (Option.some.inj h)
          refine ⟨?_, ?_, ?_⟩
          · rw [flatten_cons, flatten_cons]
            exact (hperm.append_left (x :: xs)).trans perm_middle
          · intro y hy
            rw [flatten_cons, mem_append] at hy
            obtain hy | hy := hy
            · obtain rfl | hy := mem_cons.mp hy
              · exact hlt.le
              · exact hlt.le.trans (hx y hy)
            · exact hle y hy
          · intro l hl
            obtain rfl | hl := mem_cons.mp hl
            · exact hs (x :: xs) (by simp)
            · exact hrest l hl
        · obtain ⟨rfl, rfl⟩ := Prod.mk.inj (Option.some.inj h)
          refine ⟨by simp, ?_, hkeep⟩
          intro y hy
          rw [flatten_cons, mem_append] at hy
          obtain hy | hy := hy
          · obtain rfl | hy := mem_cons.mp hy
            · exact le_refl _
            · exact hx y hy
          · exact (not_lt.mp hlt).trans (hle y hy)

theorem mergeLoop_spec {fuel : Nat} :
    ∀ {children : List (List E)}, (∀ l ∈ children, l.Pairwise fun a b => key a ≤ key b) →
      children.flatten.length ≤ fuel →
      (mergeLoop key fuel children).Perm children.flatten ∧
      (mergeLoop key fuel children).Pairwise fun a b => key a ≤ key b := by
  induction fuel with
  | zero =>
    intro children _ hlen
    have hnil : children.flatten = [] := length_eq_zero_iff.mp (Nat.le_zero.mp hlen)
    rw [hnil]
    exact ⟨List.Perm.refl _, List.Pairwise.nil⟩
  | succ fuel ih =>
    intro children hs hlen
    unfold mergeLoop
    cases hp : pick key children with
    | none =>
      rw [pick_eq_none hp]
      exact ⟨List.Perm.refl _, List.Pairwise.nil⟩
    | some p =>
      obtain ⟨e, rest⟩ := p
      obtain ⟨hperm, hle, hrest⟩ := pick_eq_some hp hs
      have hlen' : rest.flatten.length ≤ fuel := by
        have := hperm.length_eq
        rw [length_cons] at this
        omega
      obtain ⟨hp', hs'⟩ := ih hrest hlen'
      refine ⟨(hp'.cons e).trans hperm.symm, pairwise_cons.mpr ⟨?_, hs'⟩⟩
      intro x hx
      have hx' : x ∈ e :: rest.flatten := mem_cons_of_mem _ (hp'.mem_iff.mp hx)
      exact hle x (hperm.symm.mem_iff.mp hx')

theorem mergeAll_perm {children : List (List E)}
    (hs : ∀ l ∈ children, l.Pairwise fun a b => key a ≤ key b) :
    (mergeAll key children).Perm children.flatten :=
  (mergeLoop_spec hs (Nat.le_refl _)).1

theorem mergeAll_sorted {children : List (List E)}
    (hs : ∀ l ∈ children, l.Pairwise fun a b => key a ≤ key b) :
    (mergeAll key children).Pairwise fun a b => key a ≤ key b :=
  (mergeLoop_spec hs (Nat.le_refl _)).2

theorem mergeAll_lt {children : List (List E)}
    (hs : ∀ l ∈ children, l.Pairwise fun a b => key a < key b)
    (hdistinct : children.Pairwise fun l l' => ∀ x ∈ l, ∀ y ∈ l', key x ≠ key y) :
    (mergeAll key children).Pairwise fun a b => key a < key b := by
  have hle : ∀ l ∈ children, l.Pairwise fun a b => key a ≤ key b :=
    fun l hl => (hs l hl).imp le_of_lt
  have hne : children.flatten.Pairwise fun a b => key a ≠ key b :=
    pairwise_flatten.mpr ⟨fun l hl => (hs l hl).imp ne_of_lt, hdistinct⟩
  have hne' := ((mergeAll_perm hle).pairwise_iff fun {_ _} h => h.symm).mpr hne
  exact ((mergeAll_sorted hle).and hne').imp fun h => lt_of_le_of_ne h.1 h.2

/-- A single list is its own merge. -/
theorem mergeAll_singleton {l : List E} (hs : l.Pairwise fun a b => key a < key b) :
    mergeAll key [l] = l := by
  have hle : ∀ l' ∈ [l], l'.Pairwise fun a b => key a ≤ key b :=
    forall_mem_singleton.mpr (hs.imp le_of_lt)
  have hlt := mergeAll_lt (forall_mem_singleton.mpr hs) (pairwise_singleton _ l)
  have hperm := mergeAll_perm hle
  rw [flatten_singleton] at hperm
  exact hperm.eq_of_pairwise (fun a b _ _ h h' => absurd h' h.asymm) hlt hs

end Merge
