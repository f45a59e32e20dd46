/-
  Database iterators beside writes.

  While a `DBIter` is used, entries come into the memtable it walks over, all with sequence
  numbers above its own. What it meets in one call is any list between the entries it can see
  and all entries there are (`Between`); from call to call it keeps its place (`resume`).
-/
import LevelDB.Iterator.DBIter

namespace LevelDB

open List SortedList

variable {K V : Type} [LinearOrder K]

/-- A sorted list of entries of `U` that has all those up to `s`. -/
structure Between (U : Set (Entry K V)) (s : Nat) (es : List (Entry K V)) : Prop where
  strict : Strict Entry.key es
  sub : ∀ e ∈ es, e ∈ U
  all : ∀ e ∈ U, e.sequence ≤ s → e ∈ es

def around (e : Entry K V) (es : List (Entry K V)) : List (Entry K V) :=
  (es.filter fun x => decide (x.key < e.key)) ++ e :: es.filter fun x => decide (e.key < x.key)

namespace DBIter

/-- The iterator at its place among the entries `es`, and the entries it can meet there. -/
def resume (it : DBIter K V) (es : List (Entry K V)) : DBIter K V × List (Entry K V) :=
  if it.valid then
    match it.iter with
    | .invalid => (it, es)
    | .on _ cur _ =>
      ({ it with iter := .on (es.filter fun x => decide (x.key < cur.key)).reverse cur
                           (es.filter fun x => decide (cur.key < x.key)) }, around cur es)
  else (it, es)

/-- One call on the entries `p.1`. -/
def stepOn [KeyBytes K] [Inhabited V] (s : Nat) (it : DBIter K V)
    (p : List (Entry K V) × Cursor.Call K) : Option (DBIter K V) :=
  (it.resume p.1).1.step (it.resume p.1).2 s p.2

end DBIter

/-! ## Lists that show the same -/

namespace Between

variable {U : Set (Entry K V)} {s : Nat} {es es' : List (Entry K V)}

theorem mem_iff (h : Between U s es) (h' : Between U s es') {e : Entry K V}
    (hs : e.sequence ≤ s) : e ∈ es ↔ e ∈ es' :=
  ⟨fun he => h'.all e (h.sub e he) hs, fun he => h.all e (h'.sub e he) hs⟩

theorem shown (h : Between U s es) (h' : Between U s es') {e : Entry K V} (he : Shown es s e) :
    Shown es' s e :=
  ⟨he.1, he.2.1, fun x hx hk hs => he.2.2 x ((h.mem_iff h' hs).mpr hx) hk hs⟩

theorem around (h : Between U s es) (hU : ∀ a ∈ U, ∀ b ∈ U, a.key = b.key → a = b)
    {e : Entry K V} (he : e ∈ U) : Between U s (around e es) := by
  have hmem : ∀ x, x ∈ LevelDB.around e es ↔ x = e ∨ x ∈ es := by
    intro x
    unfold LevelDB.around
    simp only [mem_append, mem_cons, mem_filter, decide_eq_true_eq]
    constructor
    · tauto
    · intro hx
      obtain rfl | hx := hx
      · exact Or.inr (Or.inl rfl)
      · obtain hlt | heq | hgt := lt_trichotomy x.key e.key
        · exact Or.inl ⟨hx, hlt⟩
        · exact Or.inr (Or.inl (hU x (h.sub x hx) e he heq))
        · exact Or.inr (Or.inr ⟨hx, hgt⟩)
  refine ⟨?_, ?_, ?_⟩
  · refine pairwise_append.mpr ⟨h.strict.filter _, pairwise_cons.mpr ⟨?_,
      h.strict.filter _⟩, ?_⟩
    · intro x hx
      exact of_decide_eq_true (mem_filter.mp hx).2
    · intro x hx y hy
      have hxe : x.key < e.key := of_decide_eq_true (mem_filter.mp hx).2
      obtain rfl | hy := mem_cons.mp hy
      · exact hxe
      · exact hxe.trans (of_decide_eq_true (mem_filter.mp hy).2)
  · intro x hx
    obtain rfl | hx := (hmem x).mp hx
    · exact he
    · exact h.sub x hx
  · exact fun x hx hs => (hmem x).mpr (Or.inr (h.all x hx hs))

end Between

variable {U : Set (Entry K V)} {s : Nat} {es es' : List (Entry K V)}

theorem visibleMap_between (h : Between U s es) (h' : Between U s es') :
    visibleMap es s = visibleMap es' s := by
  refine (visibleMap_strict h.strict).ext (visibleMap_strict h'.strict) ?_
  intro ⟨k, v⟩
  rw [mem_visibleMap, mem_visibleMap]
  exact Entry.visible_congr (fun e _ hs => h.mem_iff h' hs) v

/-! ## Keeping the place -/

namespace DBIter

variable {it : DBIter K V} {c : Cursor (K × V)}

theorem Sim.place (h : Sim es s it c) :
    c = .invalid ∨ ∃ before p after, c = .on before p after ∧
      visibleMap es s = before.reverse ++ p :: after := by
  cases h with
  | invalid => exact Or.inl rfl
  | forward hv hd hiter hes hcur =>
    refine Or.inr ⟨_, _, _, rfl, ?_⟩
    unfold visibleMap
    nth_rewrite 2 [hes]
    rw [shownIn_append, shownIn_reverse, shownIn_cons hcur]
  | reverse hv hd hiter hes hsaved hcur hbefore hskipped =>
    refine Or.inr ⟨_, _, _, rfl, ?_⟩
    unfold visibleMap
    nth_rewrite 2 [hes]
    rw [shownIn_append, shownIn_append, shownIn_reverse, shownIn_cons hcur,
      shownIn_eq_nil fun x hx => not_shown_of_invisible (hskipped x hx), nil_append]

theorem Sim.cursor_unique {it' : DBIter K V} {c' : Cursor (K × V)} (hes : Strict Entry.key es)
    (hmap : visibleMap es s = visibleMap es' s) (h : Sim es s it c) (h' : Sim es' s it' c')
    (hcur : c'.current.map Prod.fst = c.current.map Prod.fst) : c' = c := by
  obtain rfl | ⟨before, p, after, rfl, hc⟩ := h.place
  · obtain rfl | ⟨before', p', after', rfl, hc'⟩ := h'.place
    · rfl
    · cases hcur
  · obtain rfl | ⟨before', p', after', rfl, hc'⟩ := h'.place
    · cases hcur
    · have hstrict := visibleMap_strict (s := s) hes
      rw [hc] at hstrict
      obtain ⟨hb, rfl, rfl⟩ := hstrict.split_unique (hc.symm.trans (hmap.trans hc'))
        (Option.some.inj hcur).symm
      rw [reverse_inj.mp hb]

theorem skipped_invisible (h : Between U s es) (h' : Between U s es') {before skipped : List (Entry K V)}
    {cur : Entry K V} {after before' skipped' after' : List (Entry K V)}
    (hes : es = before.reverse ++ (skipped ++ cur :: after))
    (hes' : es' = before' ++ (skipped' ++ cur :: after'))
    (hbefore : ∀ y ∈ before, ∀ x ∈ skipped', y.key < x.key)
    (hskipped : ∀ x ∈ skipped, s < x.sequence) : ∀ x ∈ skipped', s < x.sequence := by
  intro x hx
  by_contra hs
  have hx' : x ∈ es' := by
    rw [hes']
    exact mem_append_right _ (mem_append_left _ hx)
  have hxes : x ∈ es := (h.mem_iff h' (not_lt.mp hs)).mpr hx'
  have hstrict := h.strict
  have hstrict' := h'.strict
  rw [hes, ← append_assoc] at hxes hstrict
  rw [hes'] at hstrict'
  have hlt : x.key < cur.key :=
    (pairwise_append.mp (pairwise_append.mp hstrict').2.1).2.2 x hx cur mem_cons_self
  obtain hxb | hxs := mem_append.mp (hstrict.mem_left_of_lt hxes hlt)
  · exact absurd (hbefore x (mem_reverse.mp hxb) x hx) (lt_irrefl _)
  · exact hs (hskipped x hxs)

variable [KeyBytes K] [Inhabited V]

omit [KeyBytes K] [Inhabited V] in
theorem Sim.exists_resume (h : Between U s es) (h' : Between U s es')
    (hU : ∀ a ∈ U, ∀ b ∈ U, a.key = b.key → a = b) (hsim : Sim es s it c) :
    Between U s (it.resume es').2 ∧ ∃ c', Sim (it.resume es').2 s (it.resume es').1 c' ∧
      c'.current.map Prod.fst = c.current.map Prod.fst := by
  cases hsim with
  | invalid hv =>
    have hres : it.resume es' = (it, es') := by
      unfold resume
      rw [hv]
      rfl
    rw [hres]
    exact ⟨h', .invalid, .invalid hv, rfl⟩
  | @forward before cur after hv hd hiter hes hcur =>
    have hcurU : cur ∈ U := h.sub cur (by rw [hes]; simp)
    have hbetween := h'.around hU hcurU
    have hres : it.resume es' =
        ({ it with iter := .on (es'.filter fun x => decide (x.key < cur.key)).reverse cur
                             (es'.filter fun x => decide (cur.key < x.key)) }, around cur es') := by
      unfold resume
      rw [hv, hiter]
      rfl
    rw [hres]
    refine ⟨hbetween, _, .forward hv hd rfl ?_ (h.shown hbetween hcur), rfl⟩
    rw [reverse_reverse]
    rfl
  | @reverse before skipped cur after hv hd hiter hes hsaved hcur hbefore hskipped =>
    have hcur' : cur ∈ es' := h'.all cur (h.sub cur (by rw [hes]; simp)) hcur.1
    cases before with
    | nil =>
      have hres : it.resume es' = (it, es') := by
        unfold resume
        rw [hv, hiter]
        rfl
      obtain ⟨skipped', after', hes'⟩ := append_of_mem hcur'
      have hes'' : es' = [] ++ (skipped' ++ cur :: after') := hes'
      have hinv := skipped_invisible h h' hes hes'' (by simp) hskipped
      have hiter' : it.iter = .back [] (skipped' ++ cur :: after') := hiter
      rw [hres]
      exact ⟨h', _, .reverse hv hd hiter' hes'' hsaved (h.shown h' hcur) (by simp) hinv, rfl⟩
    | cons x before =>
      have hxU : x ∈ U := h.sub x (by rw [hes]; simp)
      have hbetween := h'.around hU hxU
      have hres : it.resume es' =
          ({ it with iter := .on (es'.filter fun y => decide (y.key < x.key)).reverse x
                               (es'.filter fun y => decide (x.key < y.key)) }, around x es') := by
        unfold resume
        rw [hv, hiter]
        rfl
      have hxc : x.key < cur.key := InternalKey.lt_of_userKey_lt (hbefore x mem_cons_self)
      have hmem : cur ∈ es'.filter fun y => decide (x.key < y.key) :=
        mem_filter.mpr ⟨hcur', decide_eq_true hxc⟩
      obtain ⟨skipped', after', hsplit⟩ := append_of_mem hmem
      have hes'' : around x es' =
          ((es'.filter fun y => decide (y.key < x.key)) ++ [x]) ++ (skipped' ++ cur :: after') := by
        unfold around
        rw [hsplit, append_assoc]
        rfl
      have hlt : ∀ y ∈ skipped', x.key < y.key := by
        intro y hy
        have hy' : y ∈ es'.filter fun y => decide (x.key < y.key) := by
          rw [hsplit]
          exact mem_append_left _ hy
        exact of_decide_eq_true (mem_filter.mp hy').2
      have hle : ∀ y ∈ x :: before, y.key ≤ x.key := by
        intro y hy
        have hstrict := h.strict
        rw [hes, reverse_cons, append_assoc, singleton_append] at hstrict
        obtain rfl | hy := mem_cons.mp hy
        · exact le_refl _
        · exact ((pairwise_append.mp hstrict).2.2 y (mem_reverse.mpr hy) x
            mem_cons_self).le
      have hinv := skipped_invisible h hbetween hes hes''
        (fun y hy z hz => (hle y hy).trans_lt (hlt z hz)) hskipped
      have hrev : around x es' =
          (x :: (es'.filter fun y => decide (y.key < x.key)).reverse).reverse ++
            (skipped' ++ cur :: after') := by
        rw [hes'', reverse_cons, reverse_reverse]
      rw [hres]
      refine ⟨hbetween, _, .reverse hv hd ?_ hrev hsaved (h.shown hbetween hcur) ?_ hinv, rfl⟩
      · rw [← hsplit]
        rfl
      · intro y hy
        have hyx : y.key ≤ x.key := by
          obtain rfl | hy := mem_cons.mp hy
          · exact le_refl _
          · exact (of_decide_eq_true (mem_filter.mp (mem_reverse.mp hy)).2 :
              y.key < x.key).le
        exact (InternalKey.userKey_mono hyx).trans_lt (hbefore x mem_cons_self)

omit [KeyBytes K] [Inhabited V] in
theorem Sim.resume (h : Between U s es) (h' : Between U s es')
    (hU : ∀ a ∈ U, ∀ b ∈ U, a.key = b.key → a = b) (hsim : Sim es s it c) :
    Between U s (it.resume es').2 ∧ Sim (it.resume es').2 s (it.resume es').1 c := by
  obtain ⟨hbetween, c', hsim', hcur⟩ := hsim.exists_resume h h' hU
  obtain rfl := hsim.cursor_unique h.strict (visibleMap_between h hbetween) hsim' hcur
  exact ⟨hbetween, hsim'⟩

/-- **Iterators beside writes.** Whatever lists between the visible entries and all entries an
    iterator meets in its calls, it is a cursor over the one map that they all show. -/
theorem run_between (hU : ∀ a ∈ U, ∀ b ∈ U, a.key = b.key → a = b)
    (hwf : ∀ e ∈ U, e.key.WellFormed) (h : Between U s es)
    (calls : List (List (Entry K V) × Cursor.Call K)) (hcalls : ∀ p ∈ calls, Between U s p.1) :
    Cursor.run (DBIter.stepOn s) DBIter.current DBIter.init calls =
      Cursor.run (Cursor.step Prod.fst (visibleMap es s)) Cursor.current .invalid
        (calls.map Prod.snd) := by
  have hrun : ∀ (it : DBIter K V) (c : Cursor (K × V)), (∃ es', Between U s es' ∧ Sim es' s it c) →
      Cursor.run (DBIter.stepOn s) DBIter.current it calls =
        Cursor.run (Cursor.step Prod.fst (visibleMap es s)) Cursor.current c
          (calls.map Prod.snd) := by
    induction calls with
    | nil =>
      intro it c _
      rfl
    | cons p calls ih =>
      intro it c ⟨es', hes', hsim⟩
      obtain ⟨hb, hsim⟩ := hsim.resume hes' (hcalls p mem_cons_self) hU
      have hstep : Option.Rel (Sim (it.resume p.1).2 s) (it.stepOn s p)
          (c.step Prod.fst (visibleMap (it.resume p.1).2 s) p.2) :=
        step_sim hb.strict (fun e he => hwf e (hb.sub e he)) hsim p.2
      rw [← visibleMap_between h hb] at hstep
      rw [map_cons]
      unfold Cursor.run
      generalize it.stepOn s p = next at hstep ⊢
      generalize c.step Prod.fst (visibleMap es s) p.2 = next' at hstep ⊢
      cases hstep with
      | none => rfl
      | some hrel =>
        simp only [Option.bind_some, hrel.current_eq]
        rw [ih (fun q hq => hcalls q (mem_cons_of_mem _ hq)) _ _ ⟨_, hb, hrel⟩]
  exact hrun _ _ ⟨es, h, .invalid rfl⟩

end DBIter

end LevelDB
