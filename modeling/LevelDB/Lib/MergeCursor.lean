/-
  Places in a sorted list and in the sorted parts that it is merged from.

  `Leads whole part p c` says that the first `c` elements of the part are those among the first
  `p` elements of the whole. When this holds for all parts, the smallest of the elements that come
  next in the parts comes next in the whole, and the greatest of those before them comes before.
-/
import LevelDB.Lib.Cursor
import LevelDB.Lib.Merge

namespace Merge

open List Option Cursor Cursor.Machine SortedList

variable {E κ : Type*}

/-! ## Places -/

/-- The first `c` elements of the part are those among the first `p` elements of the whole. -/
structure Leads (whole part : List E) (p c : Nat) : Prop where
  le : c ≤ part.length
  iff : ∀ {i e}, part[i]? = some e → (i < c ↔ e ∈ whole.take p)

theorem leads_zero (whole part : List E) : Leads whole part 0 0 where
  le := Nat.zero_le _
  iff := by simp

section Places

variable [LinearOrder κ] {key : E → κ} {whole part : List E} {p c : Nat} {x : E} {t : κ}

theorem leads_length (hsub : part ⊆ whole) : Leads whole part whole.length part.length where
  le := le_refl _
  iff := by
    intro i e he
    rw [take_length]
    exact ⟨fun _ => hsub (mem_of_getElem? he), fun _ => (List.getElem?_eq_some_iff.mp he).1⟩

theorem leads_of_cutAt (hsub : part ⊆ whole) (hpart : CutAt key part t c)
    (hwhole : CutAt key whole t p) : Leads whole part p c where
  le := hpart.le
  iff := by
    intro i e he
    constructor
    · intro hi
      obtain ⟨n, hn⟩ := mem_iff_getElem?.mp (hsub (mem_of_getElem? he))
      have hlt : n < p := by
        by_contra hge
        exact absurd (hpart.lt i e he hi) (not_lt.mpr (hwhole.ge n e hn (not_lt.mp hge)))
      exact mem_of_getElem? (i := n) (by rw [getElem?_take_of_lt hlt, hn])
    · intro hmem
      by_contra hge
      exact absurd (hwhole.lt_of_mem_take e hmem) (not_lt.mpr (hpart.ge i e he (not_lt.mp hge)))

theorem leads_of_getElem (hsub : part ⊆ whole) (hpart : Strict key part) (hwhole : Strict key whole)
    (hp : whole[p]? = some x) (hc : part[c]? = some x) : Leads whole part p c :=
  leads_of_cutAt hsub (cutAt_getElem hpart hc) (cutAt_getElem hwhole hp)

theorem mem_take_succ (hp : whole[p]? = some x) {e : E} :
    e ∈ whole.take (p + 1) ↔ e ∈ whole.take p ∨ e = x := by
  rw [take_add_one, hp, toList_some, mem_append, mem_singleton]

theorem mem_take_iff (h : Strict key whole) (hx : whole[c]? = some x) :
    x ∈ whole.take p ↔ c < p := by
  constructor
  · intro hmem
    obtain ⟨n, hn⟩ := mem_iff_getElem?.mp hmem
    have hlt : n < p := by
      by_contra hge
      rw [getElem?_take_eq_none (not_lt.mp hge)] at hn
      exact absurd hn.symm (some_ne_none x)
    rw [getElem?_take_of_lt hlt] at hn
    rwa [(cutAt_getElem h hx).unique (cutAt_getElem h hn)]
  · intro hlt
    exact mem_of_getElem? (i := c) (by rw [getElem?_take_of_lt hlt, hx])

theorem leads_succ_of_getElem (hsub : part ⊆ whole) (hpart : Strict key part)
    (hwhole : Strict key whole) (hp : whole[p]? = some x) (hc : part[c]? = some x) :
    Leads whole part (p + 1) (c + 1) where
  le := (List.getElem?_eq_some_iff.mp hc).1
  iff := by
    intro i e he
    rw [mem_take_succ hp, ← (leads_of_getElem hsub hpart hwhole hp hc).iff he, Nat.lt_succ_iff_lt_or_eq]
    refine or_congr_right ⟨?_, ?_⟩
    · rintro rfl
      exact Option.some.inj (he.symm.trans hc)
    · rintro rfl
      have hle := (cutAt_getElem hpart hc).unique (cutAt_getElem hpart he)
      exact hle.symm

theorem leads_succ_iff (hp : whole[p]? = some x) (hx : x ∉ part) :
    Leads whole part (p + 1) c ↔ Leads whole part p c := by
  have hmem : ∀ {i : Nat} {e}, part[i]? = some e →
      (e ∈ whole.take (p + 1) ↔ e ∈ whole.take p) := by
    intro i e he
    rw [mem_take_succ hp, or_iff_left]
    rintro rfl
    exact hx (mem_of_getElem? he)
  exact ⟨fun h => ⟨h.le, fun he => (h.iff he).trans (hmem he)⟩,
    fun h => ⟨h.le, fun he => (h.iff he).trans (hmem he).symm⟩⟩

end Places

/-! ## All parts -/

/-- The place before place `c` of a list with `n` elements; before the first one there is none. -/
def before (n c : Nat) : Nat := if c = 0 then n else c - 1

theorem before_succ (n c : Nat) : before n (c + 1) = c := rfl

/-- Sorted parts of a sorted list, with a place in each that goes with place `p`. -/
structure Parts [LinearOrder κ] (key : E → κ) (whole : List E) (p : Nat)
    (H : List E → Nat → Prop) : Prop where
  le : p ≤ whole.length
  strict : Strict key whole
  part_strict : ∀ {es c}, H es c → Strict key es
  covers : ∀ x ∈ whole, ∃ es c, H es c ∧ x ∈ es
  subset : ∀ {es c}, H es c → es ⊆ whole
  leads : ∀ {es c}, H es c → Leads whole es p c

namespace Parts

variable [LinearOrder κ] {key : E → κ} {whole es : List E} {p c : Nat} {H : List E → Nat → Prop} {e : E}

/-- An element from place `p` on is not before what comes next in its part. -/
theorem exists_next_le (h : Parts key whole p H) {n : Nat} (hn : p ≤ n) (he : whole[n]? = some e) :
    ∃ es c x, H es c ∧ es[c]? = some x ∧ key x ≤ key e := by
  obtain ⟨es, c, hes, hmem⟩ := h.covers e (mem_of_getElem? he)
  obtain ⟨i, hi⟩ := mem_iff_getElem?.mp hmem
  have hci : c ≤ i := by
    by_contra hlt
    have htake := ((h.leads hes).iff hi).mp (not_le.mp hlt)
    exact absurd ((mem_take_iff h.strict he).mp htake) (not_lt.mpr hn)
  have hlen : c < es.length := hci.trans_lt (List.getElem?_eq_some_iff.mp hi).1
  have hnext := getElem?_eq_getElem hlen
  exact ⟨es, c, es[c], hes, hnext, (cutAt_getElem (h.part_strict hes) hnext).ge i e hi hci⟩

/-- An element before place `p` is not after what comes before in its part. -/
theorem exists_le_before (h : Parts key whole p H) {n : Nat} (hn : n < p) (he : whole[n]? = some e) :
    ∃ es c x, H es c ∧ es[before es.length c]? = some x ∧ key e ≤ key x := by
  obtain ⟨es, c, hes, hmem⟩ := h.covers e (mem_of_getElem? he)
  obtain ⟨i, hi⟩ := mem_iff_getElem?.mp hmem
  have hic : i < c := ((h.leads hes).iff hi).mpr ((mem_take_iff h.strict he).mpr hn)
  obtain ⟨b, rfl⟩ : ∃ b, c = b + 1 := ⟨c - 1, by omega⟩
  have hlen : b < es.length := (h.leads hes).le
  have hlast := getElem?_eq_getElem hlen
  refine ⟨es, b + 1, es[b], hes, hlast, ?_⟩
  by_contra hlt
  have hbi : ¬i < b := fun hib =>
    hlt ((cutAt_getElem (h.part_strict hes) hlast).lt i e hi hib).le
  obtain rfl : i = b := by omega
  exact hlt (le_of_eq (congrArg key (Option.some.inj (hi.symm.trans hlast))))

theorem getElem?_of_least (h : Parts key whole p H) (hes : H es c) (he : es[c]? = some e)
    (hleast : ∀ {es' c' x}, H es' c' → es'[c']? = some x → key e ≤ key x) : whole[p]? = some e := by
  obtain ⟨n, hn⟩ := mem_iff_getElem?.mp (h.subset hes (mem_of_getElem? he))
  have hpn : p ≤ n := by
    by_contra hlt
    have htake := (mem_take_iff h.strict hn).mpr (not_le.mp hlt)
    exact absurd (((h.leads hes).iff he).mpr htake) (Nat.lt_irrefl c)
  obtain rfl | hlt := Nat.eq_or_lt_of_le hpn
  · exact hn
  · have hlen : p < whole.length := hlt.trans (List.getElem?_eq_some_iff.mp hn).1
    have hget := getElem?_eq_getElem hlen
    obtain ⟨es', c', x, hes', hx, hle⟩ := h.exists_next_le (le_refl p) hget
    exact absurd (hleast hes' hx) (not_le.mpr (hle.trans_lt ((cutAt_getElem h.strict hn).lt p _ hget hlt)))

theorem getElem?_of_no_next (h : Parts key whole p H)
    (hnone : ∀ {es c}, H es c → es[c]? = none) : whole[p]? = none := by
  by_contra hsome
  obtain ⟨e, he⟩ := ne_none_iff_exists'.mp hsome
  obtain ⟨es, c, x, hes, hx, -⟩ := h.exists_next_le (le_refl p) he
  exact absurd (hx.symm.trans (hnone hes)) (some_ne_none x)

theorem getElem?_of_greatest (h : Parts key whole p H) (hes : H es c)
    (he : es[before es.length c]? = some e)
    (hgreatest : ∀ {es' c' x}, H es' c' → es'[before es'.length c']? = some x → key x ≤ key e) :
    whole[before whole.length p]? = some e := by
  have hc : c ≠ 0 := by
    rintro rfl
    rw [before, if_pos rfl, getElem?_eq_none (le_refl _)] at he
    exact absurd he.symm (some_ne_none e)
  obtain ⟨b, rfl⟩ : ∃ b, c = b + 1 := ⟨c - 1, by omega⟩
  rw [before_succ] at he
  obtain ⟨n, hn⟩ := mem_iff_getElem?.mp (h.subset hes (mem_of_getElem? he))
  have hnp : n < p := (mem_take_iff h.strict hn).mp (((h.leads hes).iff he).mp (Nat.lt_succ_self b))
  obtain ⟨q, rfl⟩ : ∃ q, p = q + 1 := ⟨p - 1, by omega⟩
  rw [before_succ]
  obtain rfl | hlt := Nat.eq_or_lt_of_le (Nat.lt_succ_iff.mp hnp)
  · exact hn
  · have hlen : q < whole.length := h.le
    have hget := getElem?_eq_getElem hlen
    obtain ⟨es', c', x, hes', hx, hle⟩ := h.exists_le_before (Nat.lt_succ_self q) hget
    have hbefore := (cutAt_getElem h.strict hget).lt n e hn hlt
    exact absurd (hgreatest hes' hx) (not_le.mpr (hbefore.trans_le hle))

theorem getElem?_of_no_before (h : Parts key whole p H)
    (hnone : ∀ {es c}, H es c → es[before es.length c]? = none) :
    whole[before whole.length p]? = none := by
  by_contra hsome
  obtain ⟨e, he⟩ := ne_none_iff_exists'.mp hsome
  have hp : p ≠ 0 := by
    rintro rfl
    rw [before, if_pos rfl, getElem?_eq_none (le_refl _)] at he
    exact absurd he.symm (some_ne_none e)
  obtain ⟨q, rfl⟩ : ∃ q, p = q + 1 := ⟨p - 1, by omega⟩
  obtain ⟨es, c, x, hes, hx, -⟩ := h.exists_le_before (Nat.lt_succ_self q) he
  exact absurd (hx.symm.trans (hnone hes)) (some_ne_none x)

end Parts

end Merge
