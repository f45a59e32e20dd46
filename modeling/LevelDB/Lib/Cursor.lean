/-
  Cursors over lists, and runs of calls on them, over any type of elements.

  A `Cursor` is invalid or stands on an element, with the elements before it (nearest first) and
  after it. `step` executes a call, and is `none` for `next` or `prev` on an invalid cursor, which
  the interface does not allow. `run_eq_of_simulation` is the simulation rule for runs of calls.

  A `Machine` is an iterator by what its calls do to its state. It is `Faithful` to a list if a
  relation between its states and numbers of elements is kept by every call; `Faithful.run_eq`
  turns this into a statement about runs. `At` is a faithful iterator with its place.
-/
import Mathlib.Data.List.TakeWhile
import Mathlib.Data.Option.Basic
import Mathlib.Order.Lattice
import LevelDB.Lib.Seek

/-- A position in a list. -/
inductive Cursor (E : Type*) where
  | invalid
  | on (before : List E) (current : E) (after : List E)
  deriving DecidableEq

namespace Cursor

open List Option

variable {E F κ : Type*}

/-- The calls of an ordered iterator. -/
inductive Call (κ : Type*) where
  | seekToFirst
  | seekToLast
  | seek (target : κ)
  | next
  | prev

def current : Cursor E → Option E
  | invalid => none
  | on _ e _ => some e

def seekToFirst : List E → Cursor E
  | [] => invalid
  | e :: es => on [] e es

/-- To the first element of `after`; `before` is what precedes it, nearest first. -/
def enter (before after : List E) : Cursor E :=
  match after with
  | [] => invalid
  | e :: rest => on before e rest

/-- To the nearest element of `before`. -/
def back (before after : List E) : Cursor E :=
  match before with
  | [] => invalid
  | e :: rest => on rest e after

def seekToLast (es : List E) : Cursor E := back es.reverse []

/-- To the first element at or after the target. -/
def seek [LinearOrder κ] (key : E → κ) (es : List E) (t : κ) : Cursor E :=
  enter (es.takeWhile fun e => decide (key e < t)).reverse
    (es.dropWhile fun e => decide (key e < t))

def next : Cursor E → Cursor E
  | invalid => invalid
  | on before e after => enter (e :: before) after

def prev : Cursor E → Cursor E
  | invalid => invalid
  | on before e after => back before (e :: after)

/-- One call; `none` when the call is not allowed. -/
def step [LinearOrder κ] (key : E → κ) (es : List E) (c : Cursor E) : Call κ → Option (Cursor E)
  | .seekToFirst => some (seekToFirst es)
  | .seekToLast => some (seekToLast es)
  | .seek t => some (seek key es t)
  | .next => if c.current.isSome then some c.next else none
  | .prev => if c.current.isSome then some c.prev else none

theorem seekToFirst_eq (es : List E) : seekToFirst es = enter [] es := by
  cases es <;> rfl

@[simp] theorem enter_nil (before : List E) : enter before ([] : List E) = invalid := rfl

@[simp] theorem enter_cons (before : List E) (e : E) (rest : List E) :
    enter before (e :: rest) = on before e rest := rfl

@[simp] theorem back_nil (after : List E) : back ([] : List E) after = invalid := rfl

@[simp] theorem back_cons (e : E) (rest after : List E) :
    back (e :: rest) after = on rest e after := rfl

/-- A list cut where the keys reach the target is where `seek` goes. -/
theorem seek_append [LinearOrder κ] {key : E → κ} {pre post : List E} {t : κ}
    (hpre : ∀ e ∈ pre, key e < t) (hpost : ∀ e ∈ post, t ≤ key e) :
    seek key (pre ++ post) t = enter pre.reverse post := by
  have htake : (pre ++ post).takeWhile (fun e => decide (key e < t)) = pre := by
    rw [takeWhile_append_of_pos (by simpa using hpre)]
    cases post with
    | nil => simp
    | cons e rest => simp [not_lt.mpr (hpost e (by simp))]
  have hdrop : (pre ++ post).dropWhile (fun e => decide (key e < t)) = post := by
    rw [dropWhile_append_of_pos (by simpa using hpre)]
    cases post with
    | nil => simp
    | cons e rest => simp [not_lt.mpr (hpost e (by simp))]
  unfold seek
  rw [htake, hdrop]

/-! ## Positions by number -/

section Nth

variable {es : List E} {i : Nat}

/-- The cursor on the element with number `i`, invalid after the last one. -/
def nth (es : List E) (i : Nat) : Cursor E := enter (es.take i).reverse (es.drop i)

theorem current_nth (es : List E) (i : Nat) : (nth es i).current = es[i]? := by
  unfold nth
  cases h : es.drop i with
  | nil =>
    have hlen : es.length ≤ i := drop_eq_nil_iff.mp h
    rw [enter_nil, getElem?_eq_none hlen]
    rfl
  | cons e rest =>
    have hget : (es.drop i)[0]? = some e := by rw [h]; rfl
    rw [getElem?_drop, Nat.add_zero] at hget
    rw [enter_cons, hget]
    rfl

theorem nth_of_le (h : es.length ≤ i) : nth es i = invalid := by
  unfold nth
  rw [drop_of_length_le h, enter_nil]

theorem nth_of_lt (h : i < es.length) :
    nth es i = on (es.take i).reverse es[i] (es.drop (i + 1)) := by
  unfold nth
  rw [drop_eq_getElem_cons h, enter_cons]

theorem seekToFirst_eq_nth (es : List E) : seekToFirst es = nth es 0 := seekToFirst_eq es

theorem seekToLast_eq_nth (es : List E) : seekToLast es = nth es (es.length - 1) := by
  unfold seekToLast
  rcases eq_nil_or_concat es with rfl | ⟨init, last, rfl⟩
  · rfl
  · rw [concat_eq_append, reverse_append, reverse_singleton, singleton_append,
      back_cons]
    unfold nth
    simp

theorem reverse_take_succ (h : i < es.length) :
    (es.take (i + 1)).reverse = es[i] :: (es.take i).reverse := by
  simp

theorem next_nth (h : i < es.length) : (nth es i).next = nth es (i + 1) := by
  rw [nth_of_lt h, next, nth, reverse_take_succ h]

theorem prev_nth_zero (h : 0 < es.length) : (nth es 0).prev = invalid := by
  rw [nth_of_lt h, prev]
  rfl

theorem prev_nth_succ (h : i + 1 < es.length) : (nth es (i + 1)).prev = nth es i := by
  have hi : i < es.length := by omega
  rw [nth_of_lt h, nth_of_lt hi, prev, reverse_take_succ hi, back_cons,
    drop_eq_getElem_cons h]

/-- In a list that is cut at a target `seek` goes to the cut. -/
theorem seek_eq_nth [LinearOrder κ] {key : E → κ} {t : κ}
    (hpre : ∀ e ∈ es.take i, key e < t) (hpost : ∀ e ∈ es.drop i, t ≤ key e) :
    seek key es t = nth es i := by
  have hseek := seek_append hpre hpost
  rwa [List.take_append_drop] at hseek

end Nth

/-! ## Runs -/

/-- What is observed after each call; `none` when a call is not allowed. -/
def run {S A O : Type*} (step : S → A → Option S) (obs : S → O) : S → List A → Option (List O)
  | _, [] => some []
  | s, a :: as => (step s a).bind fun s' => (run step obs s' as).map (obs s' :: ·)

section

variable {S T A O : Type*} {stepS : S → A → Option S} {obsS : S → O} {stepT : T → A → Option T}
  {obsT : T → O} (R : S → T → Prop)
include R

theorem run_eq_of_kept (P : A → Prop) (hobs : ∀ s t, R s t → obsS s = obsT t)
    (hstep : ∀ s t, R s t → ∀ a, P a → Option.Rel R (stepS s a) (stepT t a))
    {s : S} {t : T} (h : R s t) {as : List A} (has : ∀ a ∈ as, P a) :
    run stepS obsS s as = run stepT obsT t as := by
  induction as generalizing s t with
  | nil => rfl
  | cons a as ih =>
    obtain ⟨ha, has⟩ := forall_mem_cons.mp has
    unfold run
    have := hstep s t h a ha
    generalize hs : stepS s a = os at this ⊢
    generalize ht : stepT t a = ot at this ⊢
    cases this with
    | none => rfl
    | some hr => simp only [bind_some, ih hr has, hobs _ _ hr]

/-- Related states observe the same along every run. -/
theorem run_eq_of_simulation (hobs : ∀ s t, R s t → obsS s = obsT t)
    (hstep : ∀ s t, R s t → ∀ a, Option.Rel R (stepS s a) (stepT t a))
    {s : S} {t : T} (h : R s t) (as : List A) : run stepS obsS s as = run stepT obsT t as :=
  run_eq_of_kept R (fun _ => True) hobs (fun s t hr a _ => hstep s t hr a) h fun _ _ => trivial

end

/-! ## Iterators -/

/-- An iterator: what it shows, its error, and what its calls do. Targets are of type `τ`. -/
structure Machine (S E τ ε : Type*) where
  current : S → Option E
  error : S → Option ε
  seekToFirst : S → S
  seekToLast : S → S
  seek : τ → S → S
  next : S → S
  prev : S → S

namespace Machine

variable {S τ ε : Type*}

/-- One call; `none` when the call is not allowed. -/
def step (m : Machine S E τ ε) (s : S) : Call τ → Option S
  | .seekToFirst => some (m.seekToFirst s)
  | .seekToLast => some (m.seekToLast s)
  | .seek t => some (m.seek t s)
  | .next => if (m.current s).isSome then some (m.next s) else none
  | .prev => if (m.current s).isSome then some (m.prev s) else none

/-- What can be observed. -/
def observe (m : Machine S E τ ε) (s : S) : Option E × Option ε := (m.current s, m.error s)

theorem observe_eq_iff {m : Machine S E τ ε} {s : S} {c : Option E} {e : Option ε} :
    m.observe s = (c, e) ↔ m.current s = c ∧ m.error s = e := Prod.mk.injEq .. ▸ Iff.rfl

/-- The list is cut at number `k`: before it are the keys before the target. -/
structure CutAt [LinearOrder κ] (key : E → κ) (es : List E) (t : κ) (k : Nat) : Prop where
  le : k ≤ es.length
  lt : ∀ i e, es[i]? = some e → i < k → key e < t
  ge : ∀ i e, es[i]? = some e → k ≤ i → t ≤ key e

/-- The states of the iterator stand for the elements of `es` by their numbers; a number after
    the last one stands for an iterator that is not valid. Targets are compared by their rank. -/
structure Faithful [LinearOrder κ] (m : Machine S E τ ε) (key : E → κ) (rank : τ → κ)
    (wellFormed : τ → Prop) (es : List E) (R : S → Nat → Prop) : Prop where
  current : ∀ {s i}, R s i → m.current s = es[i]?
  error : ∀ {s i}, R s i → m.error s = none
  seekToFirst : ∀ {s i}, R s i → R (m.seekToFirst s) 0
  seekToLast : ∀ {s i}, R s i → R (m.seekToLast s) (es.length - 1)
  seek : ∀ {s i t k}, R s i → wellFormed t → CutAt key es (rank t) k → R (m.seek t s) k
  next : ∀ {s i}, R s i → i < es.length → R (m.next s) (i + 1)
  prev_zero : ∀ {s}, R s 0 → 0 < es.length → R (m.prev s) es.length
  prev_succ : ∀ {s i}, R s (i + 1) → i + 1 < es.length → R (m.prev s) i

section

variable [LinearOrder κ] {key : E → κ}

theorem cutAt_append {pre post : List E} {t : κ}
    (hpre : ∀ e ∈ pre, key e < t) (hpost : ∀ e ∈ post, t ≤ key e) :
    CutAt key (pre ++ post) t pre.length := by
  refine ⟨by simp, ?_, ?_⟩
  · intro i e he hi
    rw [getElem?_append_left hi] at he
    exact hpre e (mem_of_getElem? he)
  · intro i e he hi
    rw [getElem?_append_right hi] at he
    exact hpost e (mem_of_getElem? he)

theorem exists_cutAt_of_le {es : List E}
    (h : es.Pairwise fun a b => key a ≤ key b) (t : κ) : ∃ k, CutAt key es t k := by
  have hsplit : es.takeWhile (fun e => decide (key e < t)) ++
      es.dropWhile (fun e => decide (key e < t)) = es := takeWhile_append_dropWhile
  have htake : ∀ e ∈ es.takeWhile (fun e => decide (key e < t)), key e < t := by
    intro e he
    simpa using mem_takeWhile_imp he
  have hdrop : ∀ e ∈ es.dropWhile (fun e => decide (key e < t)), t ≤ key e := by
    cases hrest : es.dropWhile (fun e => decide (key e < t)) with
    | nil => exact fun e he => absurd he not_mem_nil
    | cons a rest =>
      grind [head?_dropWhile_not, pairwise_cons]
  have hcut := cutAt_append htake hdrop
  rw [hsplit] at hcut
  exact ⟨_, hcut⟩

theorem exists_cutAt {es : List E} (h : SortedList.Strict key es) (t : κ) : ∃ k, CutAt key es t k :=
  exists_cutAt_of_le (h.imp fun hlt => hlt.le) t

theorem cutAt_getElem {es : List E} (h : SortedList.Strict key es)
    {i : Nat} {x : E} (hx : es[i]? = some x) : CutAt key es (key x) i := by
  obtain ⟨hi, rfl⟩ := List.getElem?_eq_some_iff.mp hx
  refine ⟨hi.le, ?_, ?_⟩
  · rintro j e he hj
    obtain ⟨hlen, rfl⟩ := List.getElem?_eq_some_iff.mp he
    exact pairwise_iff_getElem.mp h j i hlen hi hj
  · rintro j e he hj
    obtain ⟨hlen, rfl⟩ := List.getElem?_eq_some_iff.mp he
    obtain rfl | hlt := Nat.eq_or_lt_of_le hj
    · exact le_refl _
    · exact (pairwise_iff_getElem.mp h i j hi hlen hlt).le

end

section CutAt

variable [LinearOrder κ] {key : E → κ} {es : List E} {t : κ} {k : Nat}

theorem CutAt.lt_of_mem_take (h : CutAt key es t k) : ∀ e ∈ es.take k, key e < t := by
  intro e he
  obtain ⟨i, hi, rfl⟩ := getElem_of_mem he
  rw [length_take] at hi
  rw [getElem_take]
  exact h.lt i _ (getElem?_eq_getElem (by omega)) (by omega)

theorem CutAt.le_of_mem_drop (h : CutAt key es t k) : ∀ e ∈ es.drop k, t ≤ key e := by
  intro e he
  obtain ⟨i, hi, rfl⟩ := getElem_of_mem he
  rw [length_drop] at hi
  rw [getElem_drop]
  exact h.ge (k + i) _ (getElem?_eq_getElem (by omega)) (by omega)

theorem CutAt.unique {k' : Nat} (h : CutAt key es t k) (h' : CutAt key es t k') : k = k' := by
  have hle : ∀ {a b}, CutAt key es t a → CutAt key es t b → a ≤ b := by
    intro a b ha hb
    by_contra hlt
    have hb' : b < es.length := lt_of_lt_of_le (not_le.mp hlt) ha.le
    have hget : es[b]? = some es[b] := getElem?_eq_getElem hb'
    exact absurd (ha.lt b _ hget (not_le.mp hlt)) (not_lt.mpr (hb.ge b _ hget (le_refl _)))
  exact le_antisymm (hle h h') (hle h' h)

theorem CutAt.find_eq (h : CutAt key es t k) : SortedList.seek key es t = es[k]? := by
  have hpre : (es.take k).find? (fun e => decide (t ≤ key e)) = none := by
    rw [find?_eq_none]
    intro e he
    rw [decide_eq_true_iff, not_le]
    exact h.lt_of_mem_take e he
  unfold SortedList.seek
  conv_lhs => rw [← List.take_append_drop k es, find?_append, hpre, none_or]
  rw [← head?_drop]
  cases hrest : es.drop k with
  | nil => rfl
  | cons e rest =>
    have he := h.le_of_mem_drop e (by rw [hrest]; exact mem_cons_self)
    rw [find?_cons, decide_eq_true he, head?_cons]

theorem CutAt.seek_eq (h : CutAt key es t k) : Cursor.seek key es t = nth es k :=
  seek_eq_nth h.lt_of_mem_take h.le_of_mem_drop

end CutAt

theorem faithful_exists [LinearOrder κ] {m : Machine S E τ ε} {key : E → κ} {rank : τ → κ}
    {wellFormed : τ → Prop} {es : List E} {ι : Type*} {P : ι → Prop} {R : ι → S → Nat → Prop}
    (h : ∀ a, P a → m.Faithful key rank wellFormed es (R a)) :
    m.Faithful key rank wellFormed es (fun s i => ∃ a, P a ∧ R a s i) where
  current := fun ⟨a, ha, hs⟩ => (h a ha).current hs
  error := fun ⟨a, ha, hs⟩ => (h a ha).error hs
  seekToFirst := fun ⟨a, ha, hs⟩ => ⟨a, ha, (h a ha).seekToFirst hs⟩
  seekToLast := fun ⟨a, ha, hs⟩ => ⟨a, ha, (h a ha).seekToLast hs⟩
  seek := fun ⟨a, ha, hs⟩ ht hk => ⟨a, ha, (h a ha).seek hs ht hk⟩
  next := fun ⟨a, ha, hs⟩ hi => ⟨a, ha, (h a ha).next hs hi⟩
  prev_zero := fun ⟨a, ha, hs⟩ hpos => ⟨a, ha, (h a ha).prev_zero hs hpos⟩
  prev_succ := fun ⟨a, ha, hs⟩ hi => ⟨a, ha, (h a ha).prev_succ hs hi⟩

/-! ## Iterators over lists in memory -/

/-- A list with a cursor on it. Targets are compared by their rank. -/
def ofList [LinearOrder κ] (key : E → κ) (rank : τ → κ) : Machine (List E × Cursor E) E τ ε where
  current s := s.2.current
  error _ := none
  seekToFirst s := (s.1, Cursor.seekToFirst s.1)
  seekToLast s := (s.1, Cursor.seekToLast s.1)
  seek t s := (s.1, Cursor.seek key s.1 (rank t))
  next s := (s.1, s.2.next)
  prev s := (s.1, s.2.prev)

theorem ofList_faithful [LinearOrder κ] (key : E → κ) (rank : τ → κ) (wellFormed : τ → Prop)
    (es : List E) : (ofList (ε := ε) key rank).Faithful key rank wellFormed es
      (fun s i => s = (es, nth es i)) where
  current := by
    rintro _ i rfl
    exact current_nth es i
  error := fun _ => rfl
  seekToFirst := by
    rintro _ i rfl
    exact congrArg (es, ·) (seekToFirst_eq_nth es)
  seekToLast := by
    rintro _ i rfl
    exact congrArg (es, ·) (seekToLast_eq_nth es)
  seek := by
    rintro _ i t k rfl - hk
    exact congrArg (es, ·) hk.seek_eq
  next := by
    rintro _ i rfl hi
    exact congrArg (es, ·) (next_nth hi)
  prev_zero := by
    rintro _ rfl hpos
    exact congrArg (es, ·) ((prev_nth_zero hpos).trans (nth_of_le (le_refl _)).symm)
  prev_succ := by
    rintro _ i rfl hi
    exact congrArg (es, ·) (prev_nth_succ hi)

/-- Iterators without elements. -/
def empty : Machine Unit E τ ε where
  current _ := none
  error _ := none
  seekToFirst := id
  seekToLast := id
  seek _ := id
  next := id
  prev := id

theorem empty_faithful [LinearOrder κ] (key : E → κ) (rank : τ → κ) (wellFormed : τ → Prop) :
    (empty (ε := ε)).Faithful key rank wellFormed [] (fun _ _ => True) where
  current := fun _ => rfl
  error := fun _ => rfl
  seekToFirst := fun _ => trivial
  seekToLast := fun _ => trivial
  seek := fun _ _ _ => trivial
  next := fun _ _ => trivial
  prev_zero := fun _ _ => trivial
  prev_succ := fun _ _ => trivial

/-! ## Iterators of two kinds -/

section Sum

variable {S' : Type*}

/-- The iterators of two kinds as iterators of one. -/
def sum (m : Machine S E τ ε) (m' : Machine S' E τ ε) : Machine (S ⊕ S') E τ ε where
  current := Sum.elim m.current m'.current
  error := Sum.elim m.error m'.error
  seekToFirst := Sum.map m.seekToFirst m'.seekToFirst
  seekToLast := Sum.map m.seekToLast m'.seekToLast
  seek t := Sum.map (m.seek t) (m'.seek t)
  next := Sum.map m.next m'.next
  prev := Sum.map m.prev m'.prev

/-- The calls of `m'` on states `f s` are those of `m` on `s`. -/
structure Embeds (m : Machine S E τ ε) (m' : Machine S' E τ ε) (f : S → S') : Prop where
  current : ∀ s, m'.current (f s) = m.current s
  error : ∀ s, m'.error (f s) = m.error s
  seekToFirst : ∀ s, m'.seekToFirst (f s) = f (m.seekToFirst s)
  seekToLast : ∀ s, m'.seekToLast (f s) = f (m.seekToLast s)
  seek : ∀ t s, m'.seek t (f s) = f (m.seek t s)
  next : ∀ s, m'.next (f s) = f (m.next s)
  prev : ∀ s, m'.prev (f s) = f (m.prev s)

theorem embeds_inl (m : Machine S E τ ε) (m' : Machine S' E τ ε) : Embeds m (m.sum m') Sum.inl :=
  ⟨fun _ => rfl, fun _ => rfl, fun _ => rfl, fun _ => rfl, fun _ _ => rfl, fun _ => rfl, fun _ => rfl⟩

theorem embeds_inr (m : Machine S E τ ε) (m' : Machine S' E τ ε) : Embeds m' (m.sum m') Sum.inr :=
  ⟨fun _ => rfl, fun _ => rfl, fun _ => rfl, fun _ => rfl, fun _ _ => rfl, fun _ => rfl, fun _ => rfl⟩

variable [LinearOrder κ] {key : E → κ} {rank : τ → κ} {wellFormed : τ → Prop} {es : List E}

theorem Faithful.embed {m : Machine S E τ ε} {m' : Machine S' E τ ε} {f : S → S'}
    {R : S → Nat → Prop} (h : m.Faithful key rank wellFormed es R) (hf : Embeds m m' f) :
    m'.Faithful key rank wellFormed es (fun s' i => ∃ s, f s = s' ∧ R s i) where
  current := by
    rintro _ i ⟨s, rfl, hs⟩
    rw [hf.current, h.current hs]
  error := by
    rintro _ i ⟨s, rfl, hs⟩
    rw [hf.error, h.error hs]
  seekToFirst := by
    rintro _ i ⟨s, rfl, hs⟩
    exact ⟨_, (hf.seekToFirst s).symm, h.seekToFirst hs⟩
  seekToLast := by
    rintro _ i ⟨s, rfl, hs⟩
    exact ⟨_, (hf.seekToLast s).symm, h.seekToLast hs⟩
  seek := by
    rintro _ i t k ⟨s, rfl, hs⟩ ht hk
    exact ⟨_, (hf.seek t s).symm, h.seek hs ht hk⟩
  next := by
    rintro _ i ⟨s, rfl, hs⟩ hi
    exact ⟨_, (hf.next s).symm, h.next hs hi⟩
  prev_zero := by
    rintro _ ⟨s, rfl, hs⟩ hpos
    exact ⟨_, (hf.prev s).symm, h.prev_zero hs hpos⟩
  prev_succ := by
    rintro _ i ⟨s, rfl, hs⟩ hi
    exact ⟨_, (hf.prev s).symm, h.prev_succ hs hi⟩

end Sum

/-! ## Iterators that show something else -/

section Map

variable {E' τ' : Type*}

/-- An iterator that shows its elements by `f`, and takes targets by `g`. -/
def map (m : Machine S E τ ε) (f : E → E') (g : τ' → τ) : Machine S E' τ' ε where
  current s := (m.current s).map f
  error := m.error
  seekToFirst := m.seekToFirst
  seekToLast := m.seekToLast
  seek t := m.seek (g t)
  next := m.next
  prev := m.prev

variable [LinearOrder κ] {key : E → κ} {key' : E' → κ} {es : List E}

theorem CutAt.of_map {f : E → E'} (hkey : ∀ e ∈ es, key' (f e) = key e) {t : κ} {k : Nat}
    (h : CutAt key' (es.map f) t k) : CutAt key es t k := by
  have hget : ∀ (i : Nat) (e : E), es[i]? = some e → (es.map f)[i]? = some (f e) := by
    intro i e he
    rw [getElem?_map, he, map_some]
  refine ⟨by simpa using h.le, ?_, ?_⟩
  · intro i e he hi
    rw [← hkey e (mem_of_getElem? he)]
    exact h.lt i _ (hget i e he) hi
  · intro i e he hi
    rw [← hkey e (mem_of_getElem? he)]
    exact h.ge i _ (hget i e he) hi

theorem Faithful.map {m : Machine S E τ ε} {rank : τ → κ} {wellFormed : τ → Prop}
    {R : S → Nat → Prop} (h : m.Faithful key rank wellFormed es R) {f : E → E'} {g : τ' → τ}
    {rank' : τ' → κ} {wellFormed' : τ' → Prop} (hkey : ∀ e ∈ es, key' (f e) = key e)
    (htarget : ∀ t, wellFormed' t → wellFormed (g t) ∧ rank (g t) = rank' t) :
    (m.map f g).Faithful key' rank' wellFormed' (es.map f) R where
  current := by
    intro s i hs
    rw [getElem?_map, ← h.current hs]
    rfl
  error := h.error
  seekToFirst := h.seekToFirst
  seekToLast := by
    rw [length_map]
    exact h.seekToLast
  seek := by
    intro s i t k hs ht hk
    obtain ⟨hwf, hrank⟩ := htarget t ht
    have hcut := hk.of_map hkey
    rw [← hrank] at hcut
    exact h.seek hs hwf hcut
  next := by
    rw [length_map]
    exact h.next
  prev_zero := by
    rw [length_map]
    exact h.prev_zero
  prev_succ := by
    rw [length_map]
    exact h.prev_succ

end Map

/-! ## Errors that stay -/

/-- The states of `P` have an error, and every call leads to a state of `P`. -/
structure Latched (m : Machine S E τ ε) (P : S → Prop) : Prop where
  error : ∀ {s}, P s → m.error s ≠ none
  seekToFirst : ∀ {s}, P s → P (m.seekToFirst s)
  seekToLast : ∀ {s}, P s → P (m.seekToLast s)
  seek : ∀ {s} t, P s → P (m.seek t s)
  next : ∀ {s}, P s → P (m.next s)
  prev : ∀ {s}, P s → P (m.prev s)

section

variable {m : Machine S E τ ε} {P : S → Prop} (h : m.Latched P) {s s' : S} (hs : P s)
include h hs

theorem Latched.step {call : Call τ} (hstep : m.step s call = some s') : P s' := by
  cases call with
  | seekToFirst => exact Option.some.inj hstep ▸ h.seekToFirst hs
  | seekToLast => exact Option.some.inj hstep ▸ h.seekToLast hs
  | seek t => exact Option.some.inj hstep ▸ h.seek t hs
  | next =>
    rw [Machine.step] at hstep
    split_ifs at hstep
    exact Option.some.inj hstep ▸ h.next hs
  | prev =>
    rw [Machine.step] at hstep
    split_ifs at hstep
    exact Option.some.inj hstep ▸ h.prev hs

theorem Latched.run {calls : List (Call τ)} (hrun : calls.foldlM m.step s = some s') : P s' := by
  induction calls generalizing s with
  | nil => exact Option.some.inj hrun ▸ hs
  | cons call calls ih =>
    rw [foldlM_cons] at hrun
    obtain ⟨s₁, hstep, hrest⟩ := bind_eq_some_iff.mp hrun
    exact ih (h.step hs hstep) hrest

end

/-- The targets of a call. -/
def Allows (wellFormed : τ → Prop) : Call τ → Prop
  | .seek t => wellFormed t
  | _ => True

/-- The call with the rank of its target. -/
def rankCall (rank : τ → κ) : Call τ → Call κ
  | .seekToFirst => .seekToFirst
  | .seekToLast => .seekToLast
  | .seek t => .seek (rank t)
  | .next => .next
  | .prev => .prev

theorem rankCall_id (call : Call κ) : rankCall id call = call := by cases call <;> rfl

/-- Along every run a faithful iterator shows what a cursor over the list shows, without an
    error. -/
theorem Faithful.run_eq [LinearOrder κ] {m : Machine S E τ ε} {key : E → κ} {rank : τ → κ}
    {wellFormed : τ → Prop} {es : List E} {R : S → Nat → Prop}
    (h : m.Faithful key rank wellFormed es R) (hsorted : SortedList.Strict key es) {s : S} {i : Nat}
    (hs : R s i) {calls : List (Call τ)} (hcalls : ∀ call ∈ calls, Allows wellFormed call) :
    run m.step m.observe s calls =
      run (fun c call => Cursor.step key es c (rankCall rank call)) (fun c => (c.current, none))
        (nth es i) calls := by
  refine run_eq_of_kept (fun s c => ∃ i, R s i ∧ c = nth es i) (Allows wellFormed) ?_ ?_
    ⟨i, hs, rfl⟩ hcalls
  · rintro s _ ⟨i, hs, rfl⟩
    unfold observe
    rw [h.current hs, h.error hs, current_nth]
  · rintro s _ ⟨i, hs, rfl⟩ call hok
    have hcurrent : (m.current s).isSome = (nth es i).current.isSome := by
      rw [h.current hs, current_nth]
    have hlt : (nth es i).current.isSome = true → i < es.length := by
      intro hvalid
      rw [current_nth] at hvalid
      obtain ⟨e, he⟩ := isSome_iff_exists.mp hvalid
      exact (List.getElem?_eq_some_iff.mp he).1
    cases call with
    | seekToFirst => exact .some ⟨0, h.seekToFirst hs, seekToFirst_eq_nth es⟩
    | seekToLast => exact .some ⟨_, h.seekToLast hs, seekToLast_eq_nth es⟩
    | seek t =>
      obtain ⟨k, hk⟩ := exists_cutAt hsorted (rank t)
      exact .some ⟨k, h.seek hs hok hk, hk.seek_eq⟩
    | next =>
      rw [Machine.step, rankCall, Cursor.step, hcurrent]
      by_cases hvalid : (nth es i).current.isSome = true
      · rw [if_pos hvalid, if_pos hvalid]
        exact .some ⟨i + 1, h.next hs (hlt hvalid), next_nth (hlt hvalid)⟩
      · rw [if_neg hvalid, if_neg hvalid]
        exact .none
    | prev =>
      rw [Machine.step, rankCall, Cursor.step, hcurrent]
      by_cases hvalid : (nth es i).current.isSome = true
      · rw [if_pos hvalid, if_pos hvalid]
        have hi := hlt hvalid
        cases i with
        | zero =>
          refine .some ⟨es.length, h.prev_zero hs hi, ?_⟩
          rw [prev_nth_zero hi, nth_of_le (le_refl _)]
        | succ i => exact .some ⟨i, h.prev_succ hs hi, prev_nth_succ hi⟩
      · rw [if_neg hvalid, if_neg hvalid]
        exact .none

/-! ## Scans -/

/-- What is shown on the way to the end, and the state there. -/
def scan (m : Machine S E τ ε) : Nat → S → List E × S
  | 0, s => ([], s)
  | fuel + 1, s =>
    match m.current s with
    | none => ([], s)
    | some e =>
      let rest := m.scan fuel (m.next s)
      (e :: rest.1, rest.2)

/-- A faithful iterator shows the rest of the list, and has no error at the end. -/
theorem Faithful.scan_eq [LinearOrder κ] {m : Machine S E τ ε} {key : E → κ} {rank : τ → κ}
    {wellFormed : τ → Prop} {es : List E} {R : S → Nat → Prop}
    (h : m.Faithful key rank wellFormed es R) {fuel : Nat} {s : S} {i : Nat} (hs : R s i)
    (hfuel : es.length < i + fuel) :
    (m.scan fuel s).1 = es.drop i ∧ m.error (m.scan fuel s).2 = none := by
  induction fuel generalizing s i with
  | zero => exact ⟨(drop_of_length_le (by omega)).symm, h.error hs⟩
  | succ fuel ih =>
    unfold scan
    rw [h.current hs]
    by_cases hi : i < es.length
    · rw [getElem?_eq_getElem hi]
      obtain ⟨hrest, herror⟩ := ih (h.next hs hi) (by omega)
      exact ⟨by rw [drop_eq_getElem_cons hi, ← hrest], herror⟩
    · rw [getElem?_eq_none (by omega)]
      exact ⟨(drop_of_length_le (by omega)).symm, h.error hs⟩

/-! ## Iterators at a place -/

section At

variable [LinearOrder κ] {m : Machine S E τ ε} {key : E → κ} {rank : τ → κ}
  {wellFormed : τ → Prop} {es : List E} {s : S} {i : Nat}

/-- The iterator is faithful to `es` and stands at number `i`. -/
def At (m : Machine S E τ ε) (key : E → κ) (rank : τ → κ) (wellFormed : τ → Prop) (es : List E)
    (s : S) (i : Nat) : Prop := ∃ R, m.Faithful key rank wellFormed es R ∧ R s i

theorem At.embed {S' : Type*} {m' : Machine S' E τ ε} {f : S → S'}
    (h : m.At key rank wellFormed es s i) (hf : Embeds m m' f) :
    m'.At key rank wellFormed es (f s) i := by
  obtain ⟨R, hR, hs⟩ := h
  exact ⟨_, hR.embed hf, s, rfl, hs⟩

theorem At.map {E' τ' : Type*} {key' : E' → κ} {f : E → E'} {g : τ' → τ} {rank' : τ' → κ}
    {wellFormed' : τ' → Prop} (h : m.At key rank wellFormed es s i)
    (hkey : ∀ e ∈ es, key' (f e) = key e)
    (htarget : ∀ t, wellFormed' t → wellFormed (g t) ∧ rank (g t) = rank' t) :
    (m.map f g).At key' rank' wellFormed' (es.map f) s i := by
  obtain ⟨R, hR, hs⟩ := h
  exact ⟨R, hR.map hkey htarget, hs⟩

/-- A new iterator shows along every run what a cursor over the list shows. -/
theorem At.run_eq (h : m.At key rank wellFormed es s es.length)
    (hsorted : SortedList.Strict key es) {calls : List (Call τ)}
    (hcalls : ∀ call ∈ calls, Allows wellFormed call) :
    run m.step m.observe s calls =
      run (fun c call => Cursor.step key es c (rankCall rank call)) (fun c => (c.current, none))
        .invalid calls := by
  obtain ⟨R, hR, hs⟩ := h
  have hrun := hR.run_eq hsorted hs hcalls
  rwa [nth_of_le (le_refl _)] at hrun

/-- A scan from the first element shows the list, and ends without an error. -/
theorem At.scan_eq (h : m.At key rank wellFormed es s i) {fuel : Nat} (hfuel : es.length < fuel) :
    (m.scan fuel (m.seekToFirst s)).1 = es ∧
      m.error (m.scan fuel (m.seekToFirst s)).2 = none := by
  obtain ⟨R, hR, hs⟩ := h
  exact hR.scan_eq (hR.seekToFirst hs) (by omega)

end At

end Machine

end Cursor
