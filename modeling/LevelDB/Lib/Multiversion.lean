/-
  Multi-version stores, over any types: a set of entries, each with a key and a time.

  `Newest S k t e` says that `e` is the newest entry of key `k` not after `t` in the set `S`.
  `Newer A B` is the order between two layers of a store that makes the first answer the right one.
  `Collected` says what may be dropped when early reads are over, and `Collected.newest_iff` that
  later reads do not notice.
-/
import Mathlib.Order.Basic
import Mathlib.Data.Set.Basic
import Mathlib.Data.Set.Lattice
import Mathlib.Data.List.Basic
import Mathlib.Order.MinMax
import Mathlib.Order.Lattice.Nat

namespace Multiversion

open List

variable {E K T : Type*} [LinearOrder T] {key : E → K} {time : E → T}

/-- `e` is the newest entry of `k` in `S` whose time is at most `t`. -/
def Newest (key : E → K) (time : E → T) (S : Set E) (k : K) (t : T) (e : E) : Prop :=
  e ∈ S ∧ key e = k ∧ time e ≤ t ∧ ∀ x ∈ S, key x = k → time x ≤ t → time x ≤ time e

/-- `S` holds an entry of `k` whose time is at most `t`. -/
def Present (key : E → K) (time : E → T) (S : Set E) (k : K) (t : T) : Prop :=
  ∃ e ∈ S, key e = k ∧ time e ≤ t

/-- Layer order: for every key, each entry of `A` is newer than each entry of `B`. -/
def Newer (key : E → K) (time : E → T) (A B : Set E) : Prop :=
  ∀ a ∈ A, ∀ b ∈ B, key a = key b → time b < time a

variable {t : T}

theorem Newest.time_eq {S : Set E} {k : K} {e e' : E} (h : Newest key time S k t e)
    (h' : Newest key time S k t e') : time e = time e' :=
  le_antisymm (h'.2.2.2 e h.1 h.2.1 h.2.2.1) (h.2.2.2 e' h'.1 h'.2.1 h'.2.2.1)

theorem Newest.unique {S : Set E} {k : K} {e e' : E}
    (hinj : ∀ a ∈ S, ∀ b ∈ S, key a = key b → time a = time b → a = b) (h : Newest key time S k t e)
    (h' : Newest key time S k t e') : e = e' :=
  hinj e h.1 e' h'.1 (h.2.1.trans h'.2.1.symm) (h.time_eq h')

theorem newest_union_left {A B : Set E} {k : K} {e : E} (hAB : Newer key time A B)
    (h : Newest key time A k t e) : Newest key time (A ∪ B) k t e := by
  obtain ⟨hA, hk, ht, hmax⟩ := h
  refine ⟨Or.inl hA, hk, ht, ?_⟩
  rintro x (hx | hx) hxk hxt
  · exact hmax x hx hxk hxt
  · exact (hAB e hA x hx (hk.trans hxk.symm)).le

/-- The rest of the stack answers when the first layer holds nothing. -/
theorem newest_union_right {A B : Set E} {k : K} {e : E} (hA : ¬ Present key time A k t) :
    Newest key time (A ∪ B) k t e ↔ Newest key time B k t e := by
  constructor
  · rintro ⟨hx | hx, hk, ht, hmax⟩
    · exact absurd ⟨e, hx, hk, ht⟩ hA
    · exact ⟨hx, hk, ht, fun y hy => hmax y (Or.inr hy)⟩
  · rintro ⟨hx, hk, ht, hmax⟩
    refine ⟨Or.inr hx, hk, ht, ?_⟩
    rintro y (hy | hy) hyk hyt
    · exact absurd ⟨y, hy, hyk, hyt⟩ hA
    · exact hmax y hy hyk hyt

/-- `r` is the right answer to a read of `k` at `t` over `S`. -/
def Answers (key : E → K) (time : E → T) (S : Set E) (k : K) (t : T) : Option E → Prop
  | some e => Newest key time S k t e
  | none => ¬ Present key time S k t

theorem Answers.congr {S S' : Set E} {k : K} {r : Option E} (h : Answers key time S k t r)
    (hS : ∀ e, key e = k → (e ∈ S ↔ e ∈ S')) :
    Answers key time S' k t r := by
  cases r with
  | none =>
    rintro ⟨e, he, hk, ht⟩
    exact h ⟨e, (hS e hk).mpr he, hk, ht⟩
  | some e =>
    obtain ⟨he, hk, ht, hmax⟩ := h
    exact ⟨(hS e hk).mp he, hk, ht, fun x hx hxk => hmax x ((hS x hxk).mpr hx) hxk⟩

theorem Answers.union {A B : Set E} {k : K} {a b : Option E} (hA : Answers key time A k t a)
    (hAB : Newer key time A B) (hB : Answers key time B k t b) :
    Answers key time (A ∪ B) k t (a.or b) := by
  cases a with
  | some e => exact newest_union_left hAB hA
  | none =>
    rw [Option.none_or]
    cases b with
    | some e => exact (newest_union_right hA).mpr hB
    | none =>
      intro ⟨e, he, hk, ht⟩
      obtain he | he := he
      · exact hA ⟨e, he, hk, ht⟩
      · exact hB ⟨e, he, hk, ht⟩

theorem answers_stack {k : K} {layers : List (Set E × Option E)}
    (hans : ∀ l ∈ layers, Answers key time l.1 k t l.2)
    (hord : layers.Pairwise fun a b => Newer key time a.1 b.1 ∨ b.1 ⊆ a.1) :
    Answers key time {e | ∃ l ∈ layers, e ∈ l.1} k t (layers.findSome? Prod.snd) := by
  induction layers with
  | nil =>
    rintro ⟨e, ⟨l, hl, -⟩, -⟩
    simp at hl
  | cons a rest ih =>
    obtain ⟨A, r⟩ := a
    obtain ⟨hhead, hrest⟩ := pairwise_cons.mp hord
    have hA := hans (A, r) mem_cons_self
    have htail := ih (fun l hl => hans l (mem_cons_of_mem _ hl)) hrest
    cases r with
    | some e =>
      obtain ⟨he, hk, ht, hmax⟩ := hA
      simp only [findSome?_cons]
      refine ⟨⟨_, mem_cons_self, he⟩, hk, ht, ?_⟩
      rintro x ⟨l, hl, hx⟩ hxk hxt
      rcases mem_cons.mp hl with rfl | hl
      · exact hmax x hx hxk hxt
      · rcases hhead l hl with hnew | hsub
        · exact (hnew e he x hx (hk.trans hxk.symm)).le
        · exact hmax x (hsub hx) hxk hxt
    | none =>
      simp only [findSome?_cons]
      cases hr : rest.findSome? Prod.snd with
      | some e =>
        rw [hr] at htail
        obtain ⟨⟨l, hl, he⟩, hk, ht, hmax⟩ := htail
        refine ⟨⟨l, mem_cons_of_mem _ hl, he⟩, hk, ht, ?_⟩
        rintro x ⟨m, hm, hx⟩ hxk hxt
        rcases mem_cons.mp hm with rfl | hm
        · exact absurd ⟨x, hx, hxk, hxt⟩ hA
        · exact hmax x ⟨m, hm, hx⟩ hxk hxt
      | none =>
        rw [hr] at htail
        rintro ⟨e, ⟨l, hl, he⟩, hk, ht⟩
        rcases mem_cons.mp hl with rfl | hl
        · exact hA ⟨e, he, hk, ht⟩
        · exact htail ⟨e, ⟨l, hl, he⟩, hk, ht⟩

theorem Newest.mono {S S' : Set E} {k : K} {e : E} (h : Newest key time S k t e) (hsub : S' ⊆ S)
    (he : e ∈ S') : Newest key time S' k t e :=
  ⟨he, h.2.1, h.2.2.1, fun x hx => h.2.2.2 x (hsub hx)⟩

/-! ## Collecting old entries -/

/-- `S'` is what is left of `S` when reads before `t₀` are no longer possible: an entry is
    dropped because a newer one of its key is seen at `t₀`, or because it is a tombstone and
    nothing older of its key is left. -/
structure Collected (key : E → K) (time : E → T) (tombstone : E → Prop) (t₀ : T) (S S' : Set E) :
    Prop where
  sub : S' ⊆ S
  dropped : ∀ e ∈ S, e ∉ S' →
    (∃ p ∈ S, key p = key e ∧ time e < time p ∧ time p ≤ t₀) ∨
    (tombstone e ∧ ∀ x ∈ S', key x = key e → time e < time x)

/-- What a later read finds newest in `S` is still there, unless it is a tombstone. -/
theorem Collected.mem_of_newest {tombstone : E → Prop} {t₀ t : T} {S S' : Set E} {k : K} {e : E}
    (h : Collected key time tombstone t₀ S S') (ht : t₀ ≤ t) (he : Newest key time S k t e) :
    e ∈ S' ∨ tombstone e ∧ ∀ x ∈ S', key x = k → time e < time x := by
  by_cases hmem : e ∈ S'
  · exact Or.inl hmem
  · right
    obtain ⟨p, hp, hpk, hlt, hpt⟩ | ⟨htomb, hold⟩ := h.dropped e he.1 hmem
    · exact absurd (he.2.2.2 p hp (hpk.trans he.2.1) (hpt.trans ht)) (not_le.mpr hlt)
    · exact ⟨htomb, fun x hx hxk => hold x hx (hxk.trans he.2.1.symm)⟩

theorem Collected.newest_iff {tombstone : E → Prop} {t₀ t : T} {S S' : Set E} {k : K} {e : E}
    (h : Collected key time tombstone t₀ S S') (ht : t₀ ≤ t) (he : ¬ tombstone e)
    (hex : Present key time S k t → ∃ e, Newest key time S k t e) :
    Newest key time S k t e ↔ Newest key time S' k t e := by
  constructor
  · intro hnew
    obtain hmem | ⟨htomb, -⟩ := h.mem_of_newest ht hnew
    · exact hnew.mono h.sub hmem
    · exact absurd htomb he
  · intro hnew
    obtain ⟨hmem, hk, het, hmax⟩ := hnew
    obtain ⟨n, hn⟩ := hex ⟨e, h.sub hmem, hk, het⟩
    -- the newest of `S` is left, and hence not newer than `e`
    have hne : time n ≤ time e := by
      obtain hn' | ⟨-, hold⟩ := h.mem_of_newest ht hn
      · exact hmax n hn' hn.2.1 hn.2.2.1
      · exact absurd (hn.2.2.2 e (h.sub hmem) hk het) (not_le.mpr (hold e hmem hk))
    exact ⟨h.sub hmem, hk, het, fun x hx hxk hxt => (hn.2.2.2 x hx hxk hxt).trans hne⟩

theorem exists_newest {E K : Type*} {key : E → K} {time : E → Nat} {S : Set E} {k : K} {t : Nat}
    (h : Present key time S k t) : ∃ e, Newest key time S k t e := by
  let times := {n | ∃ e ∈ S, key e = k ∧ time e ≤ t ∧ time e = n}
  have hne : times.Nonempty := by
    obtain ⟨e, he, hk, ht⟩ := h
    exact ⟨time e, e, he, hk, ht, rfl⟩
  have hbdd : BddAbove times := by
    refine ⟨t, ?_⟩
    intro n hn
    obtain ⟨e, -, -, ht, rfl⟩ := hn
    exact ht
  obtain ⟨e, he, hk, ht, heq⟩ := Nat.sSup_mem hne hbdd
  refine ⟨e, he, hk, ht, ?_⟩
  intro x hx hxk hxt
  rw [heq]
  exact le_csSup hbdd ⟨x, hx, hxk, hxt, rfl⟩

end Multiversion
