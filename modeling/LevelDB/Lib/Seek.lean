/-
  Strictly sorted lists and the first element at or after a target, over any types.

  `seek` is the linear form of every "position at the first key at or past target".
  `bisect` is the usual binary search for the first index where a monotone predicate
  holds; on such a predicate it is `List.findIdx` (`bisect_eq_findIdx`).

  Nothing here names a particular store.
-/
import Mathlib.Data.List.Basic
import Mathlib.Data.List.Pairwise
import Mathlib.Order.Basic
import Mathlib.Order.Lattice
import Mathlib.Tactic.Common

namespace SortedList

open List

variable {E κ : Type*} [LinearOrder κ] {key : E → κ}

/-- The keys strictly increase. -/
def Strict (key : E → κ) (l : List E) : Prop := l.Pairwise fun a b => key a < key b

instance (l : List E) : Decidable (Strict key l) := inferInstanceAs (Decidable (List.Pairwise _ l))

/-- The first element whose key is at or after `t`. -/
def seek (key : E → κ) (l : List E) (t : κ) : Option E := l.find? fun e => decide (t ≤ key e)

variable {l : List E}

theorem Strict.tail {a : E} (h : Strict key (a :: l)) : Strict key l :=
  (pairwise_cons.mp h).2

theorem Strict.head_lt {a : E} (h : Strict key (a :: l)) :
    ∀ b ∈ l, key a < key b :=
  (pairwise_cons.mp h).1

theorem Strict.eq_of_key_eq (h : Strict key l) {a b : E} (ha : a ∈ l) (hb : b ∈ l)
    (hk : key a = key b) : a = b := by
  induction l with
  | nil => simp at ha
  | cons c l ih =>
    rcases mem_cons.mp ha with ha | ha' <;> rcases mem_cons.mp hb with hb | hb'
    · exact ha.trans hb.symm
    · subst ha; exact absurd hk (h.head_lt b hb').ne
    · subst hb; exact absurd hk (h.head_lt a ha').ne'
    · exact ih h.tail ha' hb'

theorem Strict.nodup (h : Strict key l) : l.Nodup :=
  h.imp fun hlt heq => absurd (congrArg key heq) hlt.ne

theorem Strict.ext {l l' : List E} (h : Strict key l) (h' : Strict key l')
    (hmem : ∀ a, a ∈ l ↔ a ∈ l') : l = l' :=
  ((perm_ext_iff_of_nodup h.nodup h'.nodup).mpr hmem).eq_of_pairwise
    (fun _ _ _ _ hab hba => absurd hba (lt_asymm hab)) h h'

theorem Strict.split_unique {a b a' b' : List E} {p p' : E} (h : Strict key (a ++ p :: b))
    (heq : a ++ p :: b = a' ++ p' :: b') (hk : key p = key p') : a = a' ∧ p = p' ∧ b = b' := by
  have hp : p = p' := h.eq_of_key_eq (by simp) (by rw [heq]; simp) hk
  subst hp
  have hnot : p ∉ a ∧ p ∉ b := by
    obtain ⟨-, hpb, hab⟩ := pairwise_append.mp h
    refine ⟨fun hpa => absurd (hab p hpa p mem_cons_self) (lt_irrefl _), fun hpb' => ?_⟩
    exact absurd ((pairwise_cons.mp hpb).1 p hpb') (lt_irrefl _)
  obtain ⟨as, rfl, hb⟩ | ⟨bs, rfl, hb⟩ := append_eq_append_iff.mp heq
  · cases as with
    | nil =>
      rw [nil_append, List.cons.injEq] at hb
      exact ⟨(append_nil a).symm, rfl, hb.2⟩
    | cons x as =>
      rw [cons_append, List.cons.injEq] at hb
      exact absurd (by rw [hb.2]; simp) hnot.2
  · cases bs with
    | nil =>
      rw [nil_append, List.cons.injEq] at hb
      exact ⟨append_nil a', rfl, hb.2.symm⟩
    | cons x bs =>
      rw [cons_append, List.cons.injEq] at hb
      exact absurd (by rw [hb.1]; simp) hnot.1

theorem Strict.mem_left_of_lt {a b : List E} {p x : E} (h : Strict key (a ++ p :: b))
    (hx : x ∈ a ++ p :: b) (hlt : key x < key p) : x ∈ a := by
  obtain ⟨-, hpb, -⟩ := pairwise_append.mp h
  obtain hx | hx := mem_append.mp hx
  · exact hx
  · obtain rfl | hx := mem_cons.mp hx
    · exact absurd hlt (lt_irrefl _)
    · exact absurd ((pairwise_cons.mp hpb).1 x hx) (lt_asymm hlt)

theorem Strict.head_le (h : Strict key l) {a : E} (ha : l.head? = some a) :
    ∀ b ∈ l, key a ≤ key b := by
  intro b hb
  obtain ⟨l', rfl⟩ := head?_eq_some_iff.mp ha
  rcases mem_cons.mp hb with rfl | hb
  · exact le_refl _
  · exact (h.head_lt b hb).le

theorem Strict.le_getLast (h : Strict key l) {z : E} (hz : l.getLast? = some z) :
    ∀ b ∈ l, key b ≤ key z := by
  intro b hb
  obtain ⟨l', rfl⟩ := getLast?_eq_some_iff.mp hz
  rcases mem_append.mp hb with hb | hb
  · exact ((pairwise_append.mp h).2.2 b hb z (mem_singleton.mpr rfl)).le
  · rw [mem_singleton.mp hb]

theorem seek_eq_none_iff {t : κ} :
    seek key l t = none ↔ ∀ x ∈ l, key x < t := by
  unfold seek
  simp

theorem mem_of_seek_eq_some {t : κ} {e : E} (h : seek key l t = some e) : e ∈ l :=
  mem_of_find?_eq_some h

theorem le_of_seek_eq_some {t : κ} {e : E} (h : seek key l t = some e) :
    t ≤ key e := by
  unfold seek at h
  simpa using find?_some h

/-- On a sorted list `seek` finds the least element at or after the target. -/
theorem le_of_seek (hl : Strict key l) {t : κ} {e : E} (h : seek key l t = some e) :
    ∀ x ∈ l, t ≤ key x → key e ≤ key x := by
  induction l with
  | nil => simp [seek] at h
  | cons a l ih =>
    intro x hx htx
    by_cases ha : t ≤ key a
    · have he : a = e := by simpa [seek, ha] using h
      subst he
      rcases mem_cons.mp hx with rfl | hx
      · exact le_refl _
      · exact (hl.head_lt x hx).le
    · have h' : seek key l t = some e := by simpa [seek, ha] using h
      rcases mem_cons.mp hx with rfl | hx
      · exact absurd htx ha
      · exact ih hl.tail h' x hx htx

theorem exists_cut (hl : Strict key l) (t : κ) :
    ∃ pre post, l = pre ++ post ∧ (∀ e ∈ pre, key e < t) ∧ ∀ e ∈ post, t ≤ key e := by
  induction l with
  | nil => exact ⟨[], [], rfl, by simp, by simp⟩
  | cons a l ih =>
    by_cases ha : key a < t
    · obtain ⟨pre, post, rfl, hpre, hpost⟩ := ih hl.tail
      refine ⟨a :: pre, post, rfl, ?_, hpost⟩
      intro e he
      rcases mem_cons.mp he with rfl | he
      · exact ha
      · exact hpre e he
    · refine ⟨[], a :: l, rfl, by simp, ?_⟩
      intro e he
      rcases mem_cons.mp he with rfl | he
      · exact not_lt.mp ha
      · exact (not_lt.mp ha).trans (hl.head_lt e he).le

/-- Insert before the first element whose key is at or after that of `a`. -/
def insertSorted (key : E → κ) (a : E) : List E → List E
  | [] => [a]
  | b :: l => if key a ≤ key b then a :: b :: l else b :: insertSorted key a l

theorem mem_insertSorted {a b : E} : b ∈ insertSorted key a l ↔ b = a ∨ b ∈ l := by
  induction l with
  | nil => simp [insertSorted]
  | cons c l ih =>
    unfold insertSorted
    split_ifs
    · exact mem_cons
    · rw [mem_cons, ih, mem_cons]
      exact or_left_comm

theorem length_insertSorted (a : E) (l : List E) :
    (insertSorted key a l).length = l.length + 1 := by
  induction l with
  | nil => rfl
  | cons b l ih =>
    unfold insertSorted
    split_ifs
    · rfl
    · rw [length_cons, ih, length_cons]

theorem Strict.insertSorted (h : Strict key l) {a : E} (ha : ∀ b ∈ l, key b ≠ key a) :
    Strict key (insertSorted key a l) := by
  induction l with
  | nil => exact pairwise_singleton _ _
  | cons c l ih =>
    unfold SortedList.insertSorted
    split_ifs with hc
    · refine pairwise_cons.mpr ⟨?_, h⟩
      have hac : key a < key c := lt_of_le_of_ne hc (ha c mem_cons_self).symm
      intro b hb
      rcases mem_cons.mp hb with rfl | hb
      · exact hac
      · exact hac.trans (h.head_lt b hb)
    · refine pairwise_cons.mpr ⟨?_, ih h.tail fun b hb => ha b (mem_cons_of_mem _ hb)⟩
      intro b hb
      rcases mem_insertSorted.mp hb with rfl | hb
      · exact not_le.mp hc
      · exact h.head_lt b hb

theorem pairwise_either {α : Type*} {R : α → α → Prop} {l : List α} (h : l.Pairwise R) {a b : α}
    (ha : a ∈ l) (hb : b ∈ l) (hne : a ≠ b) : R a b ∨ R b a := by
  induction l with
  | nil => simp at ha
  | cons c l ih =>
    obtain ⟨hc, hl⟩ := pairwise_cons.mp h
    rcases mem_cons.mp ha with ha | ha' <;> rcases mem_cons.mp hb with hb | hb'
    · exact absurd (ha.trans hb.symm) hne
    · subst ha; exact Or.inl (hc b hb')
    · subst hb; exact Or.inr (hc a ha')
    · exact ih hl ha' hb'

theorem findSome_filterMap {α β γ : Type*} (g : α → Option β) (h : β → Option γ) (l : List α) :
    (l.filterMap g).findSome? h = l.findSome? fun a => (g a).bind h := by
  induction l with
  | nil => rfl
  | cons a l ih =>
    cases hg : g a with
    | none => simp [hg, ih]
    | some b => simp [hg, ih, findSome?_cons]

/-! ## Binary search -/

/-- The loop of `bisect`; the range shrinks at every turn, so its length is enough fuel. -/
def bisectLoop (p : Nat → Bool) : Nat → Nat → Nat → Nat
  | 0, _, right => right
  | fuel + 1, left, right =>
    if left < right then
      let mid := (left + right) / 2
      if p mid then bisectLoop p fuel (mid + 1) right else bisectLoop p fuel left mid
    else right

/-- Binary search in `[left, right)` for the first index where `p` fails, `p` holding on an
    initial part. -/
def bisect (p : Nat → Bool) (left right : Nat) : Nat := bisectLoop p (right - left) left right

theorem bisectLoop_eq {p : Nat → Bool} {n fuel left right : Nat} (hfuel : right - left ≤ fuel)
    (hl : left ≤ n) (hr : n ≤ right) (hp : ∀ i, i < right → (p i = true ↔ i < n)) :
    bisectLoop p fuel left right = n := by
  induction fuel generalizing left right with
  | zero => unfold bisectLoop; omega
  | succ fuel ih =>
    unfold bisectLoop
    split_ifs with hlt
    · dsimp only
      split_ifs with hmid
      · have h1 : (left + right) / 2 < n := (hp _ (by omega)).mp hmid
        exact ih (by omega) (by omega) hr hp
      · have h1 : ¬ (left + right) / 2 < n := fun h => hmid ((hp _ (by omega)).mpr h)
        exact ih (by omega) hl (by omega) (fun i hi => hp i (by omega))
    · omega

/-- The search ends at the border `n` of an initial part `{i | p i}` of the range. -/
theorem bisect_eq {p : Nat → Bool} {n left right : Nat} (hl : left ≤ n) (hr : n ≤ right)
    (hp : ∀ i, i < right → (p i = true ↔ i < n)) : bisect p left right = n :=
  bisectLoop_eq (Nat.le_refl _) hl hr hp

/-- Over a list whose elements satisfying `p` come first, the search counts them. -/
theorem bisect_list {α : Type*} {l : List α} {p : α → Bool}
    (hmono : l.Pairwise fun a b => p b = true → p a = true) :
    bisect (fun i => (l[i]?.map p).getD false) 0 l.length = l.findIdx (fun a => !p a) := by
  refine bisect_eq (Nat.zero_le _) findIdx_le_length ?_
  intro i hi
  rw [getElem?_eq_getElem hi]
  simp only [Option.map_some, Option.getD_some]
  constructor
  · intro hpi
    by_contra hge
    have hlt : l.findIdx (fun a => !p a) < l.length := by omega
    have hnot := findIdx_getElem (w := hlt)
    rcases Nat.lt_or_eq_of_le (Nat.not_lt.mp hge) with h | h
    · have := (pairwise_iff_getElem.mp hmono) _ _ hlt hi h hpi
      simp [this] at hnot
    · simp only [h] at hnot
      simp [hpi] at hnot
  · intro hlt
    have := not_of_lt_findIdx hlt
    simpa using this

/-- The search cuts the list into the elements that satisfy `p` and the rest. -/
theorem bisect_cut {α : Type*} {l : List α} {p : α → Bool}
    (hmono : l.Pairwise fun a b => p b = true → p a = true) :
    (∀ a ∈ l.take (bisect (fun i => (l[i]?.map p).getD false) 0 l.length), p a = true) ∧
    (∀ a ∈ l.drop (bisect (fun i => (l[i]?.map p).getD false) 0 l.length), p a = false) := by
  rw [bisect_list hmono]
  generalize hn : l.findIdx (fun a => !p a) = n
  constructor
  · intro a ha
    obtain ⟨i, hi, rfl⟩ := getElem_of_mem ha
    have hin : i < n := by rw [length_take] at hi; omega
    rw [getElem_take]
    have := not_of_lt_findIdx (hn ▸ hin)
    simpa using this
  · intro a ha
    obtain ⟨i, hi, rfl⟩ := getElem_of_mem ha
    rw [length_drop] at hi
    rw [getElem_drop]
    have hlt : l.findIdx (fun a => !p a) < l.length := by omega
    have hfirst : p l[l.findIdx (fun a => !p a)] = false := by
      simpa using findIdx_getElem (w := hlt)
    by_contra hpi
    have hpi : p l[n + i] = true := by simpa using hpi
    obtain hi0 | hi0 := Nat.eq_zero_or_pos i
    · simp [hi0, ← hn, hfirst] at hpi
    · have := (pairwise_iff_getElem.mp hmono) _ (n + i) hlt (by omega) (by omega) hpi
      rw [this] at hfirst
      cases hfirst

end SortedList
