/-
  The database iterator (`db/db_iter.cc`).

  `DBIter` shows one entry per user key: the newest one at or below its sequence number, when it
  is a put. The internal iterator is a `Cursor` over the list `es`; `s` is `sequence_` throughout.

  The two directions keep the internal iterator in different places. Forward it stands on
  the entry shown. In reverse it stands before every entry of the key shown, whose key and
  value are in `savedKey` and `savedValue`.

  Read sampling only feeds the seek statistics of the version and is not modelled here.
-/
import LevelDB.Lib.Cursor
import LevelDB.DbFormat

namespace LevelDB

open List SortedList

/-- Strings that `saved_key_` holds besides user keys: the empty one after `clear()`, and
    the bytes of an internal key in `Seek`. -/
class KeyBytes (K : Type) where
  empty : K
  ofInternal : InternalKey K → K

inductive Direction where
  | forward
  | reverse
  deriving DecidableEq, Repr

/-- `class DBIter`; `status_` is `none` when OK. -/
structure DBIter (K V : Type) where
  iter : Cursor (Entry K V)
  status : Option Status
  savedKey : K
  savedValue : V
  direction : Direction
  valid : Bool

namespace DBIter

variable {K V : Type} [LinearOrder K] [KeyBytes K] [Inhabited V]

def init : DBIter K V :=
  { iter := .invalid, status := none, savedKey := KeyBytes.empty, savedValue := default,
    direction := .forward, valid := false }

/-- `key()` and `value()` when `Valid()`. -/
def current (it : DBIter K V) : Option (K × V) :=
  if it.valid then
    match it.direction with
    | .forward => it.iter.current.map fun e => (e.userKey, e.value)
    | .reverse => some (it.savedKey, it.savedValue)
  else none

def parseKey (it : DBIter K V) (k : InternalKey K) : DBIter K V × Option (ParsedInternalKey K) :=
  match parseInternalKey k with
  | none =>
    ({ it with status := some (.corruptionErr "corrupted internal key in DBIter") }, none)
  | some p => (it, some p)

/-- The body of the loop of `FindNextUserEntry` at the entry `cur`: `none` to return with
    this entry, `some skipping` to go on. `skip` is always `saved_key_`. -/
def findNextBody (s : Nat) (it : DBIter K V) (skipping : Bool) (cur : Entry K V) :
    DBIter K V × Option Bool :=
  match it.parseKey cur.key with
  | (it, none) => (it, some skipping)
  | (it, some ikey) =>
    if ikey.sequence ≤ s then
      match ikey.type with
      | .deletion => ({ it with savedKey := ikey.userKey }, some true)
      | .value =>
        -- hidden by a newer entry of the same key
        if skipping && decide (ikey.userKey ≤ it.savedKey) then (it, some skipping)
        else (it, none)
    else (it, some skipping)

/-- The loop of `FindNextUserEntry`; the head of the last argument is where `iter_` is. -/
def findNextLoop (s : Nat) :
    DBIter K V → Bool → List (Entry K V) → List (Entry K V) → DBIter K V
  | it, _, _, [] => { it with iter := .invalid, savedKey := KeyBytes.empty, valid := false }
  | it, skipping, before, cur :: after =>
    match it.findNextBody s skipping cur with
    | (it, none) =>
      { it with iter := .on before cur after, savedKey := KeyBytes.empty, valid := true }
    | (it, some skipping) => findNextLoop s it skipping (cur :: before) after

def findNextUserEntry (s : Nat) (it : DBIter K V) (skipping : Bool) : DBIter K V :=
  match it.iter with
  | .invalid => it
  | .on before cur after => findNextLoop s it skipping before (cur :: after)

/-- The body of the loop of `FindPrevUserEntry`: `none` to break. -/
def findPrevBody (s : Nat) (it : DBIter K V) (valueType : ValueType) (cur : Entry K V) :
    DBIter K V × Option ValueType :=
  match it.parseKey cur.key with
  | (it, none) => (it, some valueType)
  | (it, some ikey) =>
    if ikey.sequence ≤ s then
      if valueType ≠ .deletion ∧ ikey.userKey < it.savedKey then (it, none)
      else
        match ikey.type with
        | .deletion => ({ it with savedKey := KeyBytes.empty, savedValue := default }, some .deletion)
        | .value => ({ it with savedKey := cur.userKey, savedValue := cur.value }, some .value)
    else (it, some valueType)

/-- The loop of `FindPrevUserEntry`; the head of the third argument is where `iter_` is. -/
def findPrevLoop (s : Nat) :
    DBIter K V → ValueType → List (Entry K V) → List (Entry K V) → DBIter K V × ValueType
  | it, valueType, [], _ => ({ it with iter := .invalid }, valueType)
  | it, valueType, cur :: before, after =>
    match it.findPrevBody s valueType cur with
    | (it, none) => ({ it with iter := .on before cur after }, valueType)
    | (it, some valueType) => findPrevLoop s it valueType before (cur :: after)

def findPrevUserEntry (s : Nat) (it : DBIter K V) : DBIter K V :=
  let r := match it.iter with
    | .invalid => (it, ValueType.deletion)
    | .on before cur after => findPrevLoop s it .deletion (cur :: before) after
  match r with
  | (it, .deletion) =>
    { it with valid := false, savedKey := KeyBytes.empty, savedValue := default,
              direction := .forward }
  | (it, .value) => { it with valid := true }

/-- `Next()`, on a valid iterator. -/
def next (es : List (Entry K V)) (s : Nat) (it : DBIter K V) : DBIter K V :=
  let it := match it.direction with
    | .reverse =>
      { it with
        direction := .forward
        iter := match it.iter with
          | .invalid => .seekToFirst es
          | .on before cur after => (Cursor.on before cur after).next }
    | .forward =>
      match it.iter with
      | .invalid => it
      | .on before cur after =>
        { it with savedKey := cur.userKey, iter := (Cursor.on before cur after).next }
  match it.iter with
  | .invalid => { it with valid := false, savedKey := KeyBytes.empty }
  | .on _ _ _ => it.findNextUserEntry s true

/-- The loop of `Prev()`: back to the first entry of a smaller user key; the head of the
    second argument is the entry before `iter_`. -/
def prevLoop : DBIter K V → List (Entry K V) → List (Entry K V) → DBIter K V × Bool
  | it, [], _ =>
    ({ it with iter := .invalid, valid := false, savedKey := KeyBytes.empty,
               savedValue := default }, false)
  | it, cur :: before, after =>
    if cur.userKey < it.savedKey then ({ it with iter := .on before cur after }, true)
    else prevLoop it before (cur :: after)

/-- `Prev()`, on a valid iterator. -/
def prev (s : Nat) (it : DBIter K V) : DBIter K V :=
  match it.direction with
  | .forward =>
    match it.iter with
    | .invalid => it
    | .on before cur after =>
      match prevLoop { it with savedKey := cur.userKey } before (cur :: after) with
      | (it, false) => it
      | (it, true) => findPrevUserEntry s { it with direction := .reverse }
  | .reverse => it.findPrevUserEntry s

/-- `Seek(target)`. -/
def seek (es : List (Entry K V)) (s : Nat) (it : DBIter K V) (target : K) : DBIter K V :=
  let ikey := InternalKey.ofParsed ⟨target, s, kValueTypeForSeek⟩
  let it := { it with
    direction := .forward, savedValue := default, savedKey := KeyBytes.ofInternal ikey,
    iter := Cursor.seek Entry.key es ikey }
  match it.iter with
  | .invalid => { it with valid := false }
  | .on _ _ _ => it.findNextUserEntry s false

def seekToFirst (es : List (Entry K V)) (s : Nat) (it : DBIter K V) : DBIter K V :=
  let it := { it with
    direction := .forward, savedValue := default, iter := Cursor.seekToFirst es }
  match it.iter with
  | .invalid => { it with valid := false }
  | .on _ _ _ => it.findNextUserEntry s false

def seekToLast (es : List (Entry K V)) (s : Nat) (it : DBIter K V) : DBIter K V :=
  findPrevUserEntry s { it with
    direction := .reverse, savedValue := default, iter := Cursor.seekToLast es }

/-- One call; `none` when `assert(valid_)` fails. -/
def step (es : List (Entry K V)) (s : Nat) (it : DBIter K V) : Cursor.Call K → Option (DBIter K V)
  | .seekToFirst => some (it.seekToFirst es s)
  | .seekToLast => some (it.seekToLast es s)
  | .seek t => some (it.seek es s t)
  | .next => if it.valid then some (it.next es s) else none
  | .prev => if it.valid then some (it.prev s) else none

end DBIter

/-! ## What a read at `s` sees -/

section Visible

variable {K V : Type} [LinearOrder K]

def Entry.pair (e : Entry K V) : K × V := (e.userKey, e.value)

/-- `e` is the newest visible entry of its user key in `es`, and a put. -/
def Shown (es : List (Entry K V)) (s : Nat) (e : Entry K V) : Prop :=
  e.sequence ≤ s ∧ e.valueType = some .value ∧
    ∀ x ∈ es, x.userKey = e.userKey → x.sequence ≤ s → x.tag ≤ e.tag

instance (es : List (Entry K V)) (s : Nat) (e : Entry K V) : Decidable (Shown es s e) :=
  inferInstanceAs (Decidable (_ ∧ _ ∧ _))

/-- The pairs shown among the entries `l` of `es`. -/
def shownIn (es : List (Entry K V)) (s : Nat) (l : List (Entry K V)) : List (K × V) :=
  (l.filter fun e => decide (Shown es s e)).map Entry.pair

/-- The sorted map a read at `s` sees. -/
def visibleMap (es : List (Entry K V)) (s : Nat) : List (K × V) := shownIn es s es

variable {es : List (Entry K V)} {s : Nat}

@[simp] theorem shownIn_nil : shownIn es s [] = [] := rfl

@[simp] theorem shownIn_append (a b : List (Entry K V)) :
    shownIn es s (a ++ b) = shownIn es s a ++ shownIn es s b := by
  simp [shownIn]

@[simp] theorem shownIn_reverse (a : List (Entry K V)) :
    shownIn es s a.reverse = (shownIn es s a).reverse := by
  simp [shownIn]

theorem shownIn_cons {e : Entry K V} (h : Shown es s e) (l : List (Entry K V)) :
    shownIn es s (e :: l) = e.pair :: shownIn es s l := by
  simp [shownIn, h]

theorem shownIn_cons_of_not {e : Entry K V} (h : ¬ Shown es s e) (l : List (Entry K V)) :
    shownIn es s (e :: l) = shownIn es s l := by
  simp [shownIn, h]

theorem shownIn_eq_nil {l : List (Entry K V)} (h : ∀ e ∈ l, ¬ Shown es s e) :
    shownIn es s l = [] := by
  simpa [shownIn] using h

theorem mem_shownIn {l : List (Entry K V)} {p : K × V} :
    p ∈ shownIn es s l ↔ ∃ e ∈ l, Shown es s e ∧ e.pair = p := by
  simp [shownIn, and_assoc]

theorem mem_visibleMap {k : K} {v : V} :
    (k, v) ∈ visibleMap es s ↔ Entry.Visible {e | e ∈ es} k s v := by
  unfold visibleMap shownIn
  rw [List.mem_map]
  constructor
  · rintro ⟨e, he, hp⟩
    obtain ⟨hmem, hshown⟩ := mem_filter.mp he
    obtain ⟨hs, ht, hmax⟩ := of_decide_eq_true hshown
    obtain ⟨hk, hv⟩ := Prod.mk.inj hp
    subst hk
    exact ⟨e, ⟨hmem, rfl, hs, hmax⟩, Entry.isPut_iff.mpr ⟨ht, hv⟩⟩
  · rintro ⟨e, ⟨hmem, rfl, hs, hmax⟩, hput⟩
    obtain ⟨ht, rfl⟩ := Entry.isPut_iff.mp hput
    exact ⟨e, mem_filter.mpr ⟨hmem, decide_eq_true ⟨hs, ht, hmax⟩⟩, rfl⟩

theorem not_shown_of_newer {x y : Entry K V} (hx : x ∈ es) (hxs : x.sequence ≤ s)
    (hu : x.userKey = y.userKey) (hlt : x.key < y.key) : ¬ Shown es s y := by
  rintro ⟨-, -, hmax⟩
  have hle := hmax x hx hu hxs
  rcases (InternalKey.lt_iff _ _).mp hlt with h | ⟨-, h⟩
  · exact absurd hu h.ne
  · exact absurd hle (not_le.mpr h)

omit [LinearOrder K] in
theorem not_shown_of_invisible {x : Entry K V} (h : s < x.sequence) : ¬ Shown es s x :=
  fun hx => absurd hx.1 (not_le.mpr h)

omit [LinearOrder K] in
theorem not_shown_of_deletion {x : Entry K V} (h : x.valueType = some .deletion) :
    ¬ Shown es s x := by
  rintro ⟨-, ht, -⟩
  rw [h] at ht
  cases ht

theorem visibleMap_strict (hes : Strict Entry.key es) : Strict Prod.fst (visibleMap es s) := by
  unfold visibleMap shownIn Strict
  rw [pairwise_map]
  refine List.Pairwise.imp_of_mem ?_ (List.Pairwise.filter _ hes)
  intro a b ha hb hlt
  obtain ⟨ham, hsa⟩ := mem_filter.mp ha
  obtain ⟨-, hsb⟩ := mem_filter.mp hb
  refine lt_of_le_of_ne (InternalKey.userKey_mono hlt.le) ?_
  intro hu
  exact not_shown_of_newer ham (of_decide_eq_true hsa).1 hu hlt (of_decide_eq_true hsb)

end Visible

/-! ## Simulation -/

namespace DBIter

variable {K V : Type} [LinearOrder K] [KeyBytes K] [Inhabited V]

/-- The iterator stands where the cursor over the visible map stands. -/
inductive Sim (es : List (Entry K V)) (s : Nat) : DBIter K V → Cursor (K × V) → Prop where
  | invalid {it : DBIter K V} (hv : it.valid = false) : Sim es s it .invalid
  | forward {it : DBIter K V} {before : List (Entry K V)} {cur : Entry K V}
      {after : List (Entry K V)} (hv : it.valid = true) (hd : it.direction = .forward)
      (hiter : it.iter = .on before cur after) (hes : es = before.reverse ++ cur :: after)
      (hcur : Shown es s cur) :
      Sim es s it (.on (shownIn es s before) cur.pair (shownIn es s after))
  | reverse {it : DBIter K V} {before skipped : List (Entry K V)} {cur : Entry K V}
      {after : List (Entry K V)} (hv : it.valid = true) (hd : it.direction = .reverse)
      (hiter : it.iter = .back before (skipped ++ cur :: after))
      (hes : es = before.reverse ++ (skipped ++ cur :: after))
      (hsaved : (it.savedKey, it.savedValue) = cur.pair) (hcur : Shown es s cur)
      (hbefore : ∀ x ∈ before, x.userKey < cur.userKey)
      (hskipped : ∀ x ∈ skipped, s < x.sequence) :
      Sim es s it (.on (shownIn es s before) cur.pair (shownIn es s after))

variable {it : DBIter K V} {c : Cursor (K × V)}

omit [KeyBytes K] [Inhabited V] in
theorem Sim.current_eq {es : List (Entry K V)} {s : Nat} (h : Sim es s it c) :
    it.current = c.current := by
  cases h with
  | invalid hv => simp [DBIter.current, hv, Cursor.current]
  | forward hv hd hiter hes hcur =>
    simp [DBIter.current, hv, hd, hiter, Cursor.current, Entry.pair]
  | reverse hv hd hiter hes hsaved hcur hbefore hskipped =>
    simp [DBIter.current, hv, hd, hsaved, Cursor.current]

omit [KeyBytes K] [Inhabited V] in
theorem Sim.valid_eq {es : List (Entry K V)} {s : Nat} (h : Sim es s it c) :
    it.valid = c.current.isSome := by
  cases h with
  | invalid hv => simpa [Cursor.current] using hv
  | forward hv hd hiter hes hcur => simpa [Cursor.current] using hv
  | reverse hv hd hiter hes hsaved hcur hbefore hskipped => simpa [Cursor.current] using hv

/-! ### One turn of the loops -/

variable {cur : Entry K V}

omit [KeyBytes K] [Inhabited V] in
theorem findNextBody_cases (s : Nat) (it : DBIter K V) (skipping : Bool) (hwf : cur.key.WellFormed) :
    (s < cur.sequence ∧ it.findNextBody s skipping cur = (it, some skipping)) ∨
    (cur.sequence ≤ s ∧ cur.valueType = some .deletion ∧
      it.findNextBody s skipping cur = ({ it with savedKey := cur.userKey }, some true)) ∨
    (cur.sequence ≤ s ∧ skipping = true ∧ cur.userKey ≤ it.savedKey ∧
      it.findNextBody s skipping cur = (it, some skipping)) ∨
    (cur.sequence ≤ s ∧ cur.valueType = some .value ∧
      ¬ (skipping = true ∧ cur.userKey ≤ it.savedKey) ∧
      it.findNextBody s skipping cur = (it, none)) := by
  obtain ⟨p, hp, hu, hq, ht⟩ := Entry.parse_of_wellFormed hwf
  unfold findNextBody parseKey
  simp only [hp, hu, hq, ht]
  by_cases hs : cur.sequence ≤ s
  · grind
  · exact Or.inl ⟨not_le.mp hs, by simp [hs]⟩

theorem findPrevBody_cases (s : Nat) (it : DBIter K V) (t : ValueType) (hwf : cur.key.WellFormed) :
    (s < cur.sequence ∧ it.findPrevBody s t cur = (it, some t)) ∨
    (cur.sequence ≤ s ∧ t = .value ∧ cur.userKey < it.savedKey ∧
      it.findPrevBody s t cur = (it, none)) ∨
    (cur.sequence ≤ s ∧ ¬ (t = .value ∧ cur.userKey < it.savedKey) ∧
      cur.valueType = some .deletion ∧ ∃ it', it'.direction = it.direction ∧
      it.findPrevBody s t cur = (it', some .deletion)) ∨
    (cur.sequence ≤ s ∧ ¬ (t = .value ∧ cur.userKey < it.savedKey) ∧
      cur.valueType = some .value ∧
      it.findPrevBody s t cur =
        ({ it with savedKey := cur.userKey, savedValue := cur.value }, some .value)) := by
  obtain ⟨p, hp, hu, hq, ht⟩ := Entry.parse_of_wellFormed hwf
  have hnd : t ≠ .deletion ↔ t = .value := by cases t <;> simp
  unfold findPrevBody parseKey
  simp only [hp, hu, hq, ht, hnd]
  by_cases hs : cur.sequence ≤ s
  · grind
  · exact Or.inl ⟨not_le.mp hs, by simp [hs]⟩

/-! ### The loops -/

variable {before after : List (Entry K V)}

section Loops

variable {es : List (Entry K V)} {s : Nat}

omit [KeyBytes K] [Inhabited V] in
theorem split_order (hes : Strict Entry.key es) (hsplit : es = before.reverse ++ cur :: after) :
    (∀ x ∈ before, x.key < cur.key) ∧ (∀ y ∈ after, cur.key < y.key) := by
  unfold Strict at hes
  rw [hsplit, pairwise_append, pairwise_cons] at hes
  exact ⟨fun x hx => hes.2.2 x (mem_reverse.mpr hx) cur (by simp), hes.2.1.1⟩

omit [Inhabited V] in
theorem findNextLoop_sim (hes : Strict Entry.key es) (hwf : ∀ e ∈ es, e.key.WellFormed)
    (rest : List (Entry K V)) :
    ∀ (before : List (Entry K V)) (it : DBIter K V) (skipping : Bool),
      es = before.reverse ++ rest → it.direction = .forward →
      (skipping = true → ∀ x ∈ rest, x.userKey ≤ it.savedKey → ¬ Shown es s x) →
      (∀ x ∈ before, ∀ y ∈ rest, x.sequence ≤ s → x.userKey = y.userKey →
        skipping = true ∧ y.userKey ≤ it.savedKey) →
      Sim es s (findNextLoop s it skipping before rest)
        (.enter (shownIn es s before) (shownIn es s rest)) := by
  induction rest with
  | nil =>
    intro before it skipping _ _ _ _
    exact Sim.invalid rfl
  | cons cur after ih =>
    intro before it skipping hsplit hd hskip hcover
    have hmem : cur ∈ es := by rw [hsplit]; simp
    obtain ⟨hbefore, hafter⟩ := split_order hes hsplit
    have hsplit' : es = (cur :: before).reverse ++ after := by rw [hsplit]; simp
    unfold findNextLoop
    rcases findNextBody_cases s it skipping (hwf cur hmem) with
      ⟨hs, hbody⟩ | ⟨hs, ht, hbody⟩ | ⟨hs, hsk, hle, hbody⟩ | ⟨hs, ht, hns, hbody⟩
    · -- newer than the sequence number
      have hnot : ¬ Shown es s cur := not_shown_of_invisible hs
      rw [hbody, shownIn_cons_of_not hnot, ← shownIn_cons_of_not hnot before]
      refine ih _ _ _ hsplit' hd (fun h x hx => hskip h x (mem_cons_of_mem _ hx)) ?_
      intro x hx y hy hxs hu
      rcases mem_cons.mp hx with rfl | hx
      · exact absurd hxs (not_le.mpr hs)
      · exact hcover x hx y (mem_cons_of_mem _ hy) hxs hu
    · -- a deletion hides the rest of its user key
      have hnot : ¬ Shown es s cur := not_shown_of_deletion ht
      rw [hbody, shownIn_cons_of_not hnot, ← shownIn_cons_of_not hnot before]
      refine ih _ { it with savedKey := cur.userKey } _ hsplit' hd ?_ ?_
      · intro _ x hx hle
        exact not_shown_of_newer hmem hs
          (le_antisymm (InternalKey.userKey_mono (hafter x hx).le) hle) (hafter x hx)
      · intro x hx y hy _ hu
        refine ⟨rfl, ?_⟩
        rcases mem_cons.mp hx with rfl | hx
        · exact hu.symm.le
        · rw [← hu]; exact InternalKey.userKey_mono (hbefore x hx).le
    · -- hidden by the key being skipped
      have hnot : ¬ Shown es s cur := hskip hsk cur (by simp) hle
      rw [hbody, shownIn_cons_of_not hnot, ← shownIn_cons_of_not hnot before]
      refine ih _ _ _ hsplit' hd (fun h x hx => hskip h x (mem_cons_of_mem _ hx)) ?_
      intro x hx y hy hxs hu
      rcases mem_cons.mp hx with rfl | hx
      · exact ⟨hsk, hu ▸ hle⟩
      · exact hcover x hx y (mem_cons_of_mem _ hy) hxs hu
    · -- the first visible entry of its user key
      have hshown : Shown es s cur := by
        refine ⟨hs, ht, ?_⟩
        intro x hx hu hxs
        rw [hsplit, mem_append, mem_cons, mem_reverse] at hx
        rcases hx with hx | rfl | hx
        · exact absurd (hcover x hx cur (by simp) hxs hu) hns
        · exact le_refl _
        · rcases (InternalKey.lt_iff _ _).mp (hafter x hx) with h | h
          · exact absurd hu h.ne'
          · exact h.2.le
      rw [hbody, shownIn_cons hshown, Cursor.enter_cons]
      exact Sim.forward rfl hd rfl hsplit hshown

/-- What the loop of `FindPrevUserEntry` has kept of the entries it has passed: with
    `value_type == kTypeDeletion` nothing, otherwise the last visible one. -/
def Pending (es : List (Entry K V)) (s : Nat) (it : DBIter K V) (t : ValueType)
    (passed : List (Entry K V)) : Prop :=
  match t with
  | .deletion => ∀ y ∈ passed, ¬ Shown es s y
  | .value => ∃ skipped e older, passed = skipped ++ e :: older ∧
      (it.savedKey, it.savedValue) = e.pair ∧ e.sequence ≤ s ∧ e.valueType = some .value ∧
      (∀ y ∈ skipped, s < y.sequence) ∧ ∀ y ∈ older, ¬ Shown es s y

omit [LinearOrder K] [KeyBytes K] [Inhabited V] in
theorem Pending.cons_invisible {t : ValueType} {passed : List (Entry K V)}
    (h : Pending es s it t passed) (hs : s < cur.sequence) :
    Pending es s it t (cur :: passed) := by
  cases t with
  | deletion =>
    intro y hy
    rcases mem_cons.mp hy with rfl | hy
    · exact not_shown_of_invisible hs
    · exact h y hy
  | value =>
    obtain ⟨skipped, e, older, rfl, hsaved, hes, het, hskipped, holder⟩ := h
    refine ⟨cur :: skipped, e, older, rfl, hsaved, hes, het, ?_, holder⟩
    intro y hy
    rcases mem_cons.mp hy with rfl | hy
    · exact hs
    · exact hskipped y hy

omit [KeyBytes K] [Inhabited V] in
theorem Pending.superseded {t : ValueType} {passed : List (Entry K V)}
    (h : Pending es s it t passed) (hmem : cur ∈ es) (hs : cur.sequence ≤ s)
    (hnb : ¬ (t = .value ∧ cur.userKey < it.savedKey)) (hlt : ∀ y ∈ passed, cur.key < y.key) :
    ∀ y ∈ passed, ¬ Shown es s y := by
  cases t with
  | deletion => exact h
  | value =>
    obtain ⟨skipped, e, older, rfl, hsaved, hes, het, hskipped, holder⟩ := h
    intro y hy
    rcases mem_append.mp hy with hy | hy
    · exact not_shown_of_invisible (hskipped y hy)
    · rcases mem_cons.mp hy with rfl | hy
      · have hk : it.savedKey = y.userKey := (Prod.mk.inj hsaved).1
        have hle : y.userKey ≤ cur.userKey := by
          rw [← hk]; exact not_lt.mp fun h => hnb ⟨rfl, h⟩
        have hcy := hlt y (by simp)
        exact not_shown_of_newer hmem hs
          (le_antisymm (InternalKey.userKey_mono hcy.le) hle) hcy
      · exact holder y hy

theorem findPrevLoop_spec (hes : Strict Entry.key es) (hwf : ∀ e ∈ es, e.key.WellFormed)
    {ahead : List (Entry K V)} :
    ∀ (it : DBIter K V) (t : ValueType) (passed : List (Entry K V)),
      es = before.reverse ++ (passed ++ ahead) → Pending es s it t passed →
      ∃ it' t' before' passed', findPrevLoop s it t before (passed ++ ahead) = (it', t') ∧
        it'.direction = it.direction ∧ before.reverse ++ passed = before'.reverse ++ passed' ∧
        it'.iter = .back before' (passed' ++ ahead) ∧ Pending es s it' t' passed' ∧
        (before' = [] ∨ t' = .value ∧ ∀ x ∈ before', x.userKey < it'.savedKey) := by
  induction before with
  | nil =>
    intro it t passed _ hp
    refine ⟨_, _, [], passed, rfl, rfl, rfl, rfl, ?_, Or.inl rfl⟩
    cases t <;> exact hp
  | cons cur before ih =>
    intro it t passed hsplit hp
    have hmem : cur ∈ es := by rw [hsplit]; simp
    have hsplit' : es = before.reverse ++ (cur :: passed ++ ahead) := by rw [hsplit]; simp
    obtain ⟨hbefore, hafter⟩ := split_order hes hsplit'
    have hlt : ∀ y ∈ passed, cur.key < y.key := fun y hy => hafter y (mem_append_left _ hy)
    have hlist : (cur :: before).reverse ++ passed = before.reverse ++ cur :: passed := by simp
    unfold findPrevLoop
    rcases findPrevBody_cases s it t (hwf cur hmem) with
      ⟨hs, hbody⟩ | ⟨hs, ht, hk, hbody⟩ | ⟨hs, hnb, ht, it', hd, hbody⟩ | ⟨hs, hnb, ht, hbody⟩
    · rw [hbody, hlist]
      exact ih _ _ _ hsplit' (hp.cons_invisible hs)
    · -- break: the entries of the kept key are all ahead
      rw [hbody]
      refine ⟨_, _, cur :: before, passed, rfl, rfl, rfl, rfl, ?_, Or.inr ⟨ht, ?_⟩⟩
      · cases t <;> exact hp
      · intro x hx
        rcases mem_cons.mp hx with rfl | hx
        · exact hk
        · exact (InternalKey.userKey_mono (hbefore x hx).le).trans_lt hk
    · rw [hbody, hlist]
      have hpend : Pending es s it' .deletion (cur :: passed) := by
        intro y hy
        rcases mem_cons.mp hy with rfl | hy
        · exact not_shown_of_deletion ht
        · exact hp.superseded hmem hs hnb hlt y hy
      rw [← hd]
      exact ih _ _ _ hsplit' hpend
    · rw [hbody, hlist]
      refine ih { it with savedKey := cur.userKey, savedValue := cur.value } _ _ hsplit' ?_
      exact ⟨[], cur, passed, rfl, rfl, hs, ht, by simp, hp.superseded hmem hs hnb hlt⟩

theorem findPrevUserEntry_eq (s : Nat) {before ahead : List (Entry K V)}
    (hiter : it.iter = .back before ahead) :
    it.findPrevUserEntry s =
      match findPrevLoop s it .deletion before ahead with
      | (it, .deletion) =>
        { it with valid := false, savedKey := KeyBytes.empty, savedValue := default,
                  direction := .forward }
      | (it, .value) => { it with valid := true } := by
  unfold findPrevUserEntry
  cases before with
  | nil => simp [hiter, findPrevLoop]
  | cons cur before => rw [hiter]; rfl

theorem findPrevUserEntry_sim (hes : Strict Entry.key es) (hwf : ∀ e ∈ es, e.key.WellFormed)
    {before ahead : List (Entry K V)} (hsplit : es = before.reverse ++ ahead)
    (hiter : it.iter = .back before ahead) (hd : it.direction = .reverse) :
    Sim es s (it.findPrevUserEntry s) (.back (shownIn es s before) (shownIn es s ahead)) := by
  obtain ⟨it', t, before', passed, hloop, hd', hlist, hiter', hp, hend⟩ :=
    findPrevLoop_spec (s := s) hes hwf it .deletion [] hsplit
      (fun y hy => absurd hy (by simp))
  rw [nil_append] at hloop
  rw [append_nil] at hlist
  rw [findPrevUserEntry_eq s hiter, hloop]
  have hb : shownIn es s before = (shownIn es s passed).reverse ++ shownIn es s before' := by
    have := congrArg (shownIn es s) (congrArg List.reverse hlist)
    simpa using this
  cases t with
  | deletion =>
    have hnil : before' = [] := by
      rcases hend with h | h
      · exact h
      · cases h.1
    rw [hb, hnil, shownIn_eq_nil hp]
    exact Sim.invalid rfl
  | value =>
    obtain ⟨skipped, e, older, rfl, hsaved, hse, het, hskipped, holder⟩ := hp
    have hk : it'.savedKey = e.userKey := (Prod.mk.inj hsaved).1
    have hbefore : ∀ x ∈ before', x.userKey < e.userKey := by
      intro x hx
      rcases hend with h | h
      · simp [h] at hx
      · rw [← hk]; exact h.2 x hx
    have hsplit' : es = before'.reverse ++ (skipped ++ e :: (older ++ ahead)) := by
      rw [hsplit, hlist]; simp
    have hcut : es = (skipped.reverse ++ before').reverse ++ e :: (older ++ ahead) := by
      rw [hsplit']; simp
    have hafter := (split_order hes hcut).2
    have hshown : Shown es s e := by
      refine ⟨hse, het, ?_⟩
      intro x hx hu hxs
      rw [hsplit', mem_append, mem_reverse, mem_append, mem_cons] at hx
      rcases hx with hx | hx | rfl | hx
      · exact absurd hu (hbefore x hx).ne
      · exact absurd hxs (not_le.mpr (hskipped x hx))
      · exact le_refl _
      · rcases (InternalKey.lt_iff _ _).mp (hafter x hx) with h | h
        · exact absurd hu h.ne'
        · exact h.2.le
    have hcur : shownIn es s before = e.pair :: shownIn es s before' := by
      rw [hb, shownIn_append, shownIn_cons hshown, shownIn_eq_nil holder,
        shownIn_eq_nil fun y hy => not_shown_of_invisible (hskipped y hy)]
      rfl
    have hrest : shownIn es s ahead = shownIn es s (older ++ ahead) := by
      rw [shownIn_append, shownIn_eq_nil holder, nil_append]
    rw [hcur, hrest, Cursor.back_cons]
    refine Sim.reverse rfl (hd'.trans hd) ?_ hsplit' hsaved hshown hbefore hskipped
    rw [hiter']; simp

end Loops

/-! ### The calls -/

section Calls

variable {es : List (Entry K V)} {s : Nat}

omit [Inhabited V] in
theorem findNextLoop_after (hes : Strict Entry.key es) (hwf : ∀ e ∈ es, e.key.WellFormed)
    (it : DBIter K V) (hsplit : es = before.reverse ++ cur :: after) (hcur : Shown es s cur)
    (hd : it.direction = .forward) (hk : it.savedKey = cur.userKey) :
    Sim es s (findNextLoop s it true (cur :: before) after)
      (.enter (cur.pair :: shownIn es s before) (shownIn es s after)) := by
  have hmem : cur ∈ es := by rw [hsplit]; simp
  obtain ⟨hbefore, hafter⟩ := split_order hes hsplit
  rw [← shownIn_cons hcur]
  refine findNextLoop_sim hes hwf _ _ _ _ (by rw [hsplit]; simp) hd ?_ ?_
  · intro _ x hx hle
    rw [hk] at hle
    exact not_shown_of_newer hmem hcur.1
      (le_antisymm (InternalKey.userKey_mono (hafter x hx).le) hle) (hafter x hx)
  · intro x hx y hy _ hu
    refine ⟨rfl, ?_⟩
    rw [hk, ← hu]
    rcases mem_cons.mp hx with rfl | hx
    · exact le_refl _
    · exact InternalKey.userKey_mono (hbefore x hx).le

omit [Inhabited V] in
theorem findNextLoop_pass {skipping : Bool} {l rest : List (Entry K V)} :
    ∀ {before : List (Entry K V)},
      (∀ x ∈ l, it.findNextBody s skipping x = (it, some skipping)) →
      findNextLoop s it skipping before (l ++ rest) =
        findNextLoop s it skipping (l.reverse ++ before) rest := by
  induction l with
  | nil => intro before _; rfl
  | cons x l ih =>
    intro before hpass
    rw [cons_append, findNextLoop, hpass x (by simp)]
    dsimp only
    rw [ih fun y hy => hpass y (mem_cons_of_mem _ hy)]
    simp

omit [KeyBytes K] [Inhabited V] in
theorem findNextBody_invisible {skipping : Bool} {x : Entry K V} (hwf : x.key.WellFormed)
    (hs : s < x.sequence) :
    it.findNextBody s skipping x = (it, some skipping) := by
  grind [findNextBody_cases, not_le]

omit [KeyBytes K] [Inhabited V] in
theorem findNextBody_hidden {x : Entry K V} (hwf : x.key.WellFormed)
    (ht : x.valueType = some .value) (hk : x.userKey ≤ it.savedKey) :
    it.findNextBody s true x = (it, some true) := by
  rcases findNextBody_cases s it true hwf with h | h | h | h
  · exact h.2
  · rw [ht] at h; cases h.2.1
  · exact h.2.2.2
  · exact absurd ⟨rfl, hk⟩ h.2.2.1

omit [Inhabited V] in
theorem next_sim (hes : Strict Entry.key es) (hwf : ∀ e ∈ es, e.key.WellFormed) (h : Sim es s it c)
    (hv : it.valid = true) :
    Sim es s (it.next es s) c.next := by
  cases h with
  | invalid hv' => rw [hv] at hv'; cases hv'
  | @forward before cur after _ hd hiter hsplit hcur =>
    unfold next
    simp only [hd, hiter, Cursor.next]
    have hloop := findNextLoop_after hes hwf { it with
      savedKey := cur.userKey, direction := .forward, iter := .enter (cur :: before) after }
      hsplit hcur rfl rfl
    cases after with
    | nil => exact Sim.invalid rfl
    | cons x rest => exact hloop
  | @reverse before skipped cur after _ hd hiter hsplit hsaved hcur hbefore hskipped =>
    -- the entries between the internal iterator and the key shown are passed, then the key
    have hk : it.savedKey = cur.userKey := (Prod.mk.inj hsaved).1
    have hin : ∀ x ∈ skipped ++ [cur], x ∈ es := by
      intro x hx
      rw [hsplit]
      rcases mem_append.mp hx with hx | hx
      · simp [hx]
      · simp [mem_singleton.mp hx]
    have hnext : (match it.iter with
        | .invalid => .seekToFirst es
        | .on before cur after => (Cursor.on before cur after).next) =
          Cursor.enter before (skipped ++ cur :: after) := by
      rw [hiter]
      cases before with
      | nil => rw [Cursor.back_nil, hsplit]; exact Cursor.seekToFirst_eq _
      | cons x rest => rfl
    let it' : DBIter K V :=
      { it with direction := .forward, iter := Cursor.enter before (skipped ++ cur :: after) }
    have hrun : it.next es s = findNextLoop s it' true before (skipped ++ cur :: after) := by
      unfold next
      simp only [hd, hnext]
      cases skipped <;> rfl
    have hpass : ∀ x ∈ skipped ++ [cur], it'.findNextBody s true x = (it', some true) := by
      intro x hx
      have hxwf := hwf x (hin x hx)
      rcases mem_append.mp hx with hx | hx
      · exact findNextBody_invisible hxwf (hskipped x hx)
      · obtain rfl := mem_singleton.mp hx
        exact findNextBody_hidden hxwf hcur.2.1 hk.ge
    have happ : skipped ++ cur :: after = (skipped ++ [cur]) ++ after := by simp
    rw [hrun, happ, findNextLoop_pass hpass]
    have hnone : shownIn es s before = shownIn es s (skipped.reverse ++ before) := by
      rw [shownIn_append, shownIn_reverse,
        shownIn_eq_nil fun y hy => not_shown_of_invisible (hskipped y hy)]
      rfl
    rw [hnone, reverse_append]
    exact findNextLoop_after hes hwf it' (by rw [hsplit]; simp) hcur rfl hk

theorem prevLoop_spec (before : List (Entry K V)) :
    ∀ (it : DBIter K V) (after : List (Entry K V)),
      (∃ it', prevLoop it before after = (it', false) ∧ it'.valid = false ∧
        ∀ x ∈ before, it.savedKey ≤ x.userKey) ∨
      (∃ passed before', before = passed ++ before' ∧ (∀ x ∈ passed, it.savedKey ≤ x.userKey) ∧
        prevLoop it before after =
          ({ it with iter := .back before' (passed.reverse ++ after) }, true)) := by
  induction before with
  | nil => intro it after; exact Or.inl ⟨_, rfl, rfl, by simp⟩
  | cons cur before ih =>
    intro it after
    unfold prevLoop
    by_cases hlt : cur.userKey < it.savedKey
    · exact Or.inr ⟨[], cur :: before, rfl, by simp, by simp [hlt]⟩
    · rw [if_neg hlt]
      rcases ih it (cur :: after) with
        ⟨it', hrun, hv, hall⟩ | ⟨passed, before', rfl, hall, hrun⟩
      · simp_all
      · grind

omit [KeyBytes K] [Inhabited V] in
theorem not_shown_before (hes : Strict Entry.key es) (hsplit : es = before.reverse ++ cur :: after)
    (hcur : Shown es s cur) {x : Entry K V} (hx : x ∈ before) (hk : cur.userKey ≤ x.userKey) :
    ¬ Shown es s x := by
  have hlt := (split_order hes hsplit).1 x hx
  have hu : x.userKey = cur.userKey := le_antisymm (InternalKey.userKey_mono hlt.le) hk
  intro hxs
  exact not_shown_of_newer (by rw [hsplit]; simp [hx]) hxs.1 hu hlt hcur

section

variable (hes : Strict Entry.key es) (hwf : ∀ e ∈ es, e.key.WellFormed)
include hes hwf

theorem prev_sim (h : Sim es s it c) (hv : it.valid = true) :
    Sim es s (it.prev s) c.prev := by
  cases h with
  | invalid hv' => rw [hv] at hv'; cases hv'
  | @forward before cur after _ hd hiter hsplit hcur =>
    unfold prev
    simp only [hd, hiter, Cursor.prev]
    rcases prevLoop_spec before { it with
        savedKey := cur.userKey, direction := .forward, iter := .on before cur after }
        (cur :: after) with
      ⟨it', hrun, hv', hall⟩ | ⟨passed, before', rfl, hall, hrun⟩
    · rw [hrun, shownIn_eq_nil fun x hx => not_shown_before hes hsplit hcur hx (hall x hx)]
      exact Sim.invalid hv'
    · have hnone : shownIn es s passed = [] := shownIn_eq_nil fun x hx =>
        not_shown_before hes hsplit hcur (mem_append_left _ hx) (hall x hx)
      have hahead : shownIn es s (passed.reverse ++ cur :: after) =
          cur.pair :: shownIn es s after := by
        rw [shownIn_append, shownIn_reverse, hnone, shownIn_cons hcur]; rfl
      rw [hrun, shownIn_append, hnone, nil_append, ← hahead]
      exact findPrevUserEntry_sim hes hwf (by rw [hsplit]; simp) rfl rfl
  | @reverse before skipped cur after _ hd hiter hsplit hsaved hcur hbefore hskipped =>
    unfold prev
    simp only [hd, Cursor.prev]
    have hahead : shownIn es s (skipped ++ cur :: after) = cur.pair :: shownIn es s after := by
      rw [shownIn_append, shownIn_cons hcur,
        shownIn_eq_nil fun y hy => not_shown_of_invisible (hskipped y hy)]
      rfl
    rw [← hahead]
    exact findPrevUserEntry_sim hes hwf hsplit hiter hd

theorem seekToFirst_sim (it : DBIter K V) :
    Sim es s (it.seekToFirst es s) (.seekToFirst (visibleMap es s)) := by
  rw [Cursor.seekToFirst_eq]
  have hloop := findNextLoop_sim (s := s) hes hwf es []
    { it with direction := .forward, savedValue := default, iter := .seekToFirst es } false
    rfl rfl (by simp) (by simp)
  unfold seekToFirst
  cases es with
  | nil => exact Sim.invalid rfl
  | cons e rest => exact hloop

theorem seekToLast_sim (it : DBIter K V) :
    Sim es s (it.seekToLast es s) (.seekToLast (visibleMap es s)) := by
  unfold seekToLast Cursor.seekToLast visibleMap
  rw [← shownIn_reverse]
  have hsplit : es = es.reverse.reverse ++ [] := by simp
  exact findPrevUserEntry_sim hes hwf hsplit rfl rfl

theorem seek_sim (it : DBIter K V) (target : K) :
    Sim es s (it.seek es s target) (.seek Prod.fst (visibleMap es s) target) := by
  -- the entries before and from the lookup key on
  generalize hikey : InternalKey.ofParsed ⟨target, s, kValueTypeForSeek⟩ = ikey
  have hlook : ikey = lookupKey target s := hikey.symm
  obtain ⟨pre, post, hsplit, hpre, hpost⟩ : ∃ pre post, es = pre ++ post ∧
      (∀ e ∈ pre, e.key < ikey) ∧ ∀ e ∈ post, ikey ≤ e.key := exists_cut hes ikey
  have hprev : ∀ e ∈ pre, e.userKey = target → s < e.sequence := by
    intro e he hu
    by_contra hs
    have := Entry.lookupKey_le_of_visible (hwf e (by rw [hsplit]; simp [he])) hu (not_lt.mp hs)
    exact absurd (hpre e he) (not_lt.mpr (hlook ▸ this))
  have hpreu : ∀ e ∈ pre, e.userKey ≤ target := by
    intro e he
    have := InternalKey.userKey_mono (hpre e he).le
    rwa [hlook] at this
  have hpostu : ∀ e ∈ post, target ≤ e.userKey := by
    intro e he
    have := InternalKey.userKey_mono (hpost e he)
    rwa [hlook] at this
  have hinner : Cursor.seek Entry.key es ikey = .enter pre.reverse post := by
    rw [hsplit]; exact Cursor.seek_append hpre hpost
  have houter : Cursor.seek Prod.fst (visibleMap es s) target =
      .enter (shownIn es s pre.reverse) (shownIn es s post) := by
    have hmap : visibleMap es s = shownIn es s pre ++ shownIn es s post := by
      unfold visibleMap
      nth_rewrite 2 [hsplit]
      exact shownIn_append pre post
    rw [hmap, shownIn_reverse]
    refine Cursor.seek_append ?_ ?_
    · intro p hp
      obtain ⟨e, he, hshown, rfl⟩ := mem_shownIn.mp hp
      exact lt_of_le_of_ne (hpreu e he) fun hu => absurd hshown.1 (not_le.mpr (hprev e he hu))
    · intro p hp
      obtain ⟨e, he, -, rfl⟩ := mem_shownIn.mp hp
      exact hpostu e he
  have hloop := findNextLoop_sim (s := s) hes hwf post pre.reverse
    { it with direction := .forward, savedValue := default,
              savedKey := KeyBytes.ofInternal ikey, iter := .enter pre.reverse post } false
    (by rw [reverse_reverse]; exact hsplit) rfl (by simp) (by
      grind)
  unfold seek
  simp only [hikey, hinner, houter]
  cases post with
  | nil => exact Sim.invalid rfl
  | cons e rest => exact hloop

theorem step_sim (h : Sim es s it c) (call : Cursor.Call K) :
    Option.Rel (Sim es s) (it.step es s call)
      (c.step Prod.fst (visibleMap es s) call) := by
  have hvalid := h.valid_eq
  cases call with
  | seekToFirst => exact Option.Rel.some (seekToFirst_sim hes hwf it)
  | seekToLast => exact Option.Rel.some (seekToLast_sim hes hwf it)
  | seek t => exact Option.Rel.some (seek_sim hes hwf it t)
  | next =>
    unfold step Cursor.step
    rw [← hvalid]
    split_ifs with hv
    · exact Option.Rel.some (next_sim hes hwf h hv)
    · exact Option.Rel.none
  | prev =>
    unfold step Cursor.step
    rw [← hvalid]
    split_ifs with hv
    · exact Option.Rel.some (prev_sim hes hwf h hv)
    · exact Option.Rel.none

end

/-- **The iterator is a faithful cursor.** `visibleMap es s` is the sorted map from each user
    key to its value when the newest entry of the key at or below `s` is a put; along every
    sequence of calls, `Valid()`, `key()` and `value()` of a `DBIter` at `s` are those of a
    cursor over that map. (Both sides are `none` when a `Next` or `Prev` is called on an
    invalid iterator.) -/
theorem dbIter_faithful (hes : Strict Entry.key es) (hwf : ∀ e ∈ es, e.key.WellFormed) (s : Nat)
    (calls : List (Cursor.Call K)) :
    Strict Prod.fst (visibleMap es s) ∧
    (∀ k v, (k, v) ∈ visibleMap es s ↔ Entry.Visible {e | e ∈ es} k s v) ∧
    Cursor.run (DBIter.step es s) DBIter.current DBIter.init calls =
      Cursor.run (Cursor.step Prod.fst (visibleMap es s)) Cursor.current .invalid calls :=
  ⟨visibleMap_strict hes, fun _ _ => mem_visibleMap,
    Cursor.run_eq_of_simulation (Sim es s) (fun _ _ h => h.current_eq)
      (fun _ _ h call => step_sim hes hwf h call) (Sim.invalid rfl) calls⟩

end Calls

/-! A run with both direction switches, over three versions of key 2 and a deleted key 1. -/

instance : KeyBytes Nat := ⟨0, InternalKey.userKey⟩

def exampleEntries : List (Entry Nat String) :=
  [⟨⟨1, packSequenceAndType 4 .deletion⟩, ""⟩, ⟨⟨1, packSequenceAndType 1 .value⟩, "a"⟩,
   ⟨⟨2, packSequenceAndType 9 .value⟩, "d"⟩, ⟨⟨2, packSequenceAndType 5 .value⟩, "c"⟩,
   ⟨⟨2, packSequenceAndType 2 .value⟩, "b"⟩, ⟨⟨3, packSequenceAndType 3 .value⟩, "e"⟩]

theorem dbIter_faithful_example :
    Cursor.run (DBIter.step exampleEntries 6) DBIter.current DBIter.init
      [.seekToFirst, .next, .prev, .next, .next] =
    Cursor.run (Cursor.step Prod.fst (visibleMap exampleEntries 6)) Cursor.current .invalid
      [.seekToFirst, .next, .prev, .next, .next] ∧
    Cursor.run (DBIter.step exampleEntries 6) DBIter.current DBIter.init
      [.seekToFirst, .next, .prev, .next, .next] =
      some [some (2, "c"), some (3, "e"), some (2, "c"), some (3, "e"), none] :=
  ⟨(dbIter_faithful (by decide) (by decide) 6 _).2.2, by decide⟩

end DBIter
end LevelDB
