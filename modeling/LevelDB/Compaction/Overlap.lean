/-
  Overlapping files and boundary files (`db/version_set.cc`): `GetOverlappingInputs`,
  `GetRange`, `FindLargestKey`, `FindSmallestBoundaryFile`, `AddBoundaryInputs`.

  On a sorted level the second fact, together with being a run of neighbours (`Convex`),
  gives that no file left out holds older entries of a user key of a chosen file
  (`UpClosed.of_convex`).
-/
import LevelDB.Version.Version

namespace LevelDB

open List Option SortedList

variable {K : Type} [LinearOrder K]

/-! ## Overlapping files -/

/-- The user-key range of `f` meets `[b, e]`, where `none` is no bound. -/
def FileMetaData.meets (b e : Option K) (f : FileMetaData K) : Bool :=
  !(b.any fun b => decide (f.largest.userKey < b)) &&
    !(e.any fun e => decide (e < f.smallest.userKey))

/-- One pass of `GetOverlappingInputs` over level 0: the files that meet the range, or the
    wider range to start over with. -/
def overlapScan (b e : Option K) :
    List (FileMetaData K) → Except (Option K × Option K) (List (FileMetaData K))
  | [] => .ok []
  | f :: rest =>
    if b.any fun b => decide (f.largest.userKey < b) then overlapScan b e rest
    else if e.any fun e => decide (e < f.smallest.userKey) then overlapScan b e rest
    else if b.any fun b => decide (f.smallest.userKey < b) then
      .error (some f.smallest.userKey, e)
    else if e.any fun e => decide (e < f.largest.userKey) then
      .error (b, some f.largest.userKey)
    else (overlapScan b e rest).map (f :: ·)

/-- The passes of `GetOverlappingInputs` over level 0. Every pass but the last widens the
    range, which `overlapLoop_spec` uses to show that the fuel is enough. -/
def overlapLoop (files : List (FileMetaData K)) : Nat → Option K → Option K →
    List (FileMetaData K)
  | 0, _, _ => []
  | fuel + 1, b, e =>
    match overlapScan b e files with
    | .ok inputs => inputs
    | .error (b, e) => overlapLoop files fuel b e

def Version.getOverlappingInputs (v : Version K) (level : Nat)
    (rangeBegin rangeEnd : Option (InternalKey K)) : List (FileMetaData K) :=
  let b := rangeBegin.map InternalKey.userKey
  let e := rangeEnd.map InternalKey.userKey
  if level = 0 then overlapLoop (v.files 0) (2 * (v.files 0).length + 1) b e
  else (v.files level).filter (FileMetaData.meets b e)

theorem FileMetaData.meets_iff {b e : Option K} {f : FileMetaData K} :
    f.meets b e = true ↔
      (∀ x ∈ b, x ≤ f.largest.userKey) ∧ (∀ y ∈ e, f.smallest.userKey ≤ y) := by
  unfold FileMetaData.meets
  cases b <;> cases e <;> simp

/-- The user-key range of `f` lies inside `[b, e]`. -/
def FileMetaData.Inside (b e : Option K) (f : FileMetaData K) : Prop :=
  (∀ x ∈ b, x ≤ f.smallest.userKey) ∧ (∀ y ∈ e, f.largest.userKey ≤ y)

theorem overlapScan_ok {b e : Option K} {files l : List (FileMetaData K)}
    (h : overlapScan b e files = .ok l) :
    l = files.filter (FileMetaData.meets b e) ∧ ∀ f ∈ l, f.Inside b e := by
  induction files generalizing l with
  | nil =>
    injection h with h
    subst h
    exact ⟨rfl, by simp⟩
  | cons f rest ih =>
    unfold overlapScan at h
    split_ifs at h with h1 h2 h3 h4
    · rw [filter_cons_of_neg (by simp [FileMetaData.meets, h1])]
      exact ih h
    · rw [filter_cons_of_neg (by simp [FileMetaData.meets, h2])]
      exact ih h
    · cases hr : overlapScan b e rest with
      | error r => rw [hr] at h; cases h
      | ok l' =>
        rw [hr] at h
        injection h with h
        obtain ⟨hl, hin⟩ := ih hr
        rw [filter_cons_of_pos (by simp [FileMetaData.meets, h1, h2]), ← hl, ← h]
        refine ⟨rfl, ?_⟩
        intro g hg
        obtain rfl | hg := mem_cons.mp hg
        · constructor
          · intro x hx
            rw [mem_def.mp hx] at h3
            simpa using h3
          · intro y hy
            rw [mem_def.mp hy] at h4
            simpa using h4
        · exact hin g hg

theorem overlapScan_error {b e b' e' : Option K} {files : List (FileMetaData K)}
    (h : overlapScan b e files = .error (b', e')) :
    ∃ f ∈ files, f.meets b e = true ∧
      ((∃ x ∈ b, f.smallest.userKey < x ∧ b' = some f.smallest.userKey ∧ e' = e) ∨
        (∃ y ∈ e, y < f.largest.userKey ∧ b' = b ∧ e' = some f.largest.userKey)) := by
  induction files with
  | nil => cases h
  | cons f rest ih =>
    unfold overlapScan at h
    split_ifs at h with h1 h2 h3 h4
    · obtain ⟨g, hg, hw⟩ := ih h
      exact ⟨g, mem_cons_of_mem _ hg, hw⟩
    · obtain ⟨g, hg, hw⟩ := ih h
      exact ⟨g, mem_cons_of_mem _ hg, hw⟩
    · injection h with h
      obtain ⟨rfl, rfl⟩ := Prod.mk.inj h
      refine ⟨f, mem_cons_self, by simp [FileMetaData.meets, h1, h2], Or.inl ?_⟩
      cases b with
      | none => simp at h3
      | some x => exact ⟨x, rfl, by simpa using h3, rfl, rfl⟩
    · injection h with h
      obtain ⟨rfl, rfl⟩ := Prod.mk.inj h
      refine ⟨f, mem_cons_self, by simp [FileMetaData.meets, h1, h2], Or.inr ?_⟩
      cases e with
      | none => simp at h4
      | some y => exact ⟨y, rfl, by simpa using h4, rfl, rfl⟩
    · cases hr : overlapScan b e rest with
      | ok l => rw [hr] at h; cases h
      | error r =>
        rw [hr] at h
        injection h with h
        obtain ⟨g, hg, hw⟩ := ih (hr.trans (congrArg _ h))
        exact ⟨g, mem_cons_of_mem _ hg, hw⟩

/-- How far the range can still be widened: the files that stick out of it. -/
def overlapMeasure (files : List (FileMetaData K)) (b e : Option K) : Nat :=
  files.countP (fun f => b.any fun b => decide (f.smallest.userKey < b)) +
    files.countP (fun f => e.any fun e => decide (e < f.largest.userKey))

theorem countP_lt_countP {α : Type*} {p q : α → Bool} {l : List α}
    (h : ∀ x ∈ l, p x = true → q x = true) {a : α} (ha : a ∈ l) (hp : p a = false)
    (hq : q a = true) : l.countP p < l.countP q := by
  induction l with
  | nil => simp at ha
  | cons c l ih =>
    have hle : l.countP p ≤ l.countP q :=
      countP_mono_left fun x hx => h x (mem_cons_of_mem _ hx)
    have hc := h c (by simp)
    rw [countP_cons, countP_cons]
    obtain rfl | ha := mem_cons.mp ha
    · simp only [hp, hq, Bool.false_eq_true, if_true, if_false]
      omega
    · grind

theorem overlapMeasure_lt {b e b' e' : Option K} {files : List (FileMetaData K)}
    (h : overlapScan b e files = .error (b', e')) :
    overlapMeasure files b' e' < overlapMeasure files b e := by
  obtain ⟨f, hf, -, ⟨x, hx, hlt, rfl, rfl⟩ | ⟨y, hy, hlt, rfl, rfl⟩⟩ := overlapScan_error h
  · rw [mem_def.mp hx]
    refine Nat.add_lt_add_right (countP_lt_countP ?_ hf ?_ ?_) _
    · intro g _ hg
      simp only [any_some, decide_eq_true_eq] at hg ⊢
      exact hg.trans hlt
    · simp
    · simpa using hlt
  · rw [mem_def.mp hy]
    refine Nat.add_lt_add_left (countP_lt_countP ?_ hf ?_ ?_) _
    · intro g _ hg
      simp only [any_some, decide_eq_true_eq] at hg ⊢
      exact hlt.trans hg
    · simp
    · simpa using hlt

theorem overlapMeasure_le (files : List (FileMetaData K)) (b e : Option K) :
    overlapMeasure files b e ≤ 2 * files.length := by
  grind [countP_le_length, overlapMeasure]

/-! ## The least range -/

/-- `[b', e']` contains `[b, e]` and, on each side that has a bound, every file that it meets. -/
structure Covering (files : List (FileMetaData K)) (b e b' e' : Option K) : Prop where
  lower : Option.Rel (· ≤ ·) b' b
  upper : Option.Rel (· ≤ ·) e e'
  inside : ∀ f ∈ files, f.meets b' e' = true → f.Inside b' e'

theorem rel_le_refl (b : Option K) : Option.Rel (· ≤ ·) b b := by
  cases b with
  | none => exact .none
  | some x => exact .some (le_refl x)

theorem rel_le_trans {b b' b'' : Option K} (h : Option.Rel (· ≤ ·) b b')
    (h' : Option.Rel (· ≤ ·) b' b'') : Option.Rel (· ≤ ·) b b'' := by
  cases h with
  | none => exact h'
  | some hle =>
    cases h' with
    | some hle' => exact .some (hle.trans hle')

theorem overlapScan_widens {b e b' e' : Option K} {files : List (FileMetaData K)}
    (h : overlapScan b e files = .error (b', e')) :
    Option.Rel (· ≤ ·) b' b ∧ Option.Rel (· ≤ ·) e e' := by
  obtain ⟨f, -, -, ⟨x, hx, hlt, rfl, rfl⟩ | ⟨y, hy, hlt, rfl, rfl⟩⟩ := overlapScan_error h
  · rw [mem_def.mp hx]
    exact ⟨.some hlt.le, rel_le_refl _⟩
  · rw [mem_def.mp hy]
    exact ⟨rel_le_refl _, .some hlt.le⟩

theorem FileMetaData.meets_mono {b e b' e' : Option K} (hlower : Option.Rel (· ≤ ·) b' b)
    (hupper : Option.Rel (· ≤ ·) e e') {f : FileMetaData K} (h : f.meets b e = true) :
    f.meets b' e' = true := by
  rw [FileMetaData.meets_iff] at h ⊢
  constructor
  · intro x hx
    obtain rfl := mem_def.mp hx
    cases hlower with
    | some hle => exact hle.trans (h.1 _ rfl)
  · intro y hy
    obtain rfl := mem_def.mp hy
    cases hupper with
    | some hle => exact (h.2 _ rfl).trans hle

theorem Covering.widen {b e b1 e1 b' e' : Option K} {files : List (FileMetaData K)}
    (h : Covering files b e b' e') (hs : overlapScan b e files = .error (b1, e1)) :
    Covering files b1 e1 b' e' := by
  obtain ⟨f, hf, hmeets, hcase⟩ := overlapScan_error hs
  obtain ⟨hlo, hhi⟩ := h.inside f hf (FileMetaData.meets_mono h.lower h.upper hmeets)
  obtain ⟨x, hx, -, rfl, rfl⟩ | ⟨y, hy, -, rfl, rfl⟩ := hcase
  · refine ⟨?_, h.upper, h.inside⟩
    obtain rfl := mem_def.mp hx
    cases h.lower with
    | some _ => exact .some (hlo _ rfl)
  · refine ⟨h.lower, ?_, h.inside⟩
    obtain rfl := mem_def.mp hy
    cases h.upper with
    | some _ => exact .some (hhi _ rfl)

section

variable {files : List (FileMetaData K)} {fuel : Nat} {b e : Option K}
  (h : overlapMeasure files b e < fuel)
include h

theorem overlapLoop_least :
    ∃ b' e', overlapLoop files fuel b e = files.filter (FileMetaData.meets b' e') ∧
      Covering files b e b' e' ∧ ∀ b'' e'', Covering files b e b'' e'' →
        Option.Rel (· ≤ ·) b'' b' ∧ Option.Rel (· ≤ ·) e' e'' := by
  induction fuel generalizing b e with
  | zero => omega
  | succ fuel ih =>
    unfold overlapLoop
    cases hs : overlapScan b e files with
    | ok l =>
      obtain ⟨rfl, hin⟩ := overlapScan_ok hs
      exact ⟨b, e, rfl, ⟨rel_le_refl b, rel_le_refl e,
        fun f hf hm => hin f (mem_filter.mpr ⟨hf, hm⟩)⟩,
        fun b'' e'' hc => ⟨hc.lower, hc.upper⟩⟩
    | error r =>
      obtain ⟨b1, e1⟩ := r
      have hlt := overlapMeasure_lt hs
      obtain ⟨b', e', hl, hcover, hleast⟩ := ih (b := b1) (e := e1) (by omega)
      obtain ⟨hlower, hupper⟩ := overlapScan_widens hs
      exact ⟨b', e', hl, ⟨rel_le_trans hcover.lower hlower, rel_le_trans hupper hcover.upper,
        hcover.inside⟩, fun b'' e'' hc => hleast b'' e'' (hc.widen hs)⟩

theorem overlapLoop_spec :
    ∃ b' e', overlapLoop files fuel b e = files.filter (FileMetaData.meets b' e') ∧
      (∀ f ∈ files, f.meets b e = true → f.meets b' e' = true) ∧
      ∀ f ∈ files, f.meets b' e' = true → f.Inside b' e' := by
  obtain ⟨b', e', hl, hcover, -⟩ := overlapLoop_least h
  exact ⟨b', e', hl, fun f _ => FileMetaData.meets_mono hcover.lower hcover.upper, hcover.inside⟩

end

/-! ## The turns of the loop -/

/-- The loop of `GetOverlappingInputs` turn by turn: the index, the range and `inputs`. A file of
    level 0 that sticks out of the range starts the loop over. `none` is a loop that has not
    ended. -/
def overlapTurns (levelZero : Bool) (files : List (FileMetaData K)) :
    Nat → Nat → Option K → Option K → List (FileMetaData K) → Option (List (FileMetaData K))
  | 0, _, _, _, _ => none
  | turns + 1, i, b, e, inputs =>
    match files[i]? with
    | none => some inputs
    | some f =>
      if b.any fun b => decide (f.largest.userKey < b) then
        overlapTurns levelZero files turns (i + 1) b e inputs
      else if e.any fun e => decide (e < f.smallest.userKey) then
        overlapTurns levelZero files turns (i + 1) b e inputs
      else if levelZero && b.any fun b => decide (f.smallest.userKey < b) then
        overlapTurns levelZero files turns 0 (some f.smallest.userKey) e []
      else if levelZero && e.any fun e => decide (e < f.largest.userKey) then
        overlapTurns levelZero files turns 0 b (some f.largest.userKey) []
      else overlapTurns levelZero files turns (i + 1) b e (inputs ++ [f])

section

variable {files : List (FileMetaData K)}

theorem overlapTurns_scan {b e : Option K} {rest : List (FileMetaData K)}
    {i : Nat} (hrest : files.drop i = rest) (inputs : List (FileMetaData K)) :
    match overlapScan b e rest with
    | .ok l => ∀ turns, overlapTurns true files (turns + (rest.length + 1)) i b e inputs =
        some (inputs ++ l)
    | .error (b', e') => ∃ n ≤ rest.length, ∀ turns,
        overlapTurns true files (turns + n) i b e inputs = overlapTurns true files turns 0 b' e' [] := by
  induction rest generalizing i inputs with
  | nil =>
    intro turns
    have hget : files[i]? = none := by rw [← head?_drop, hrest]; rfl
    rw [length_nil, overlapTurns, hget, append_nil]
  | cons f rest ih =>
    have hget : files[i]? = some f := by rw [← head?_drop, hrest]; rfl
    have hdrop : files.drop (i + 1) = rest := by rw [← drop_drop, hrest]; rfl
    -- a turn that goes on to the next file
    have hgo : ∀ inputs', (∀ turns, overlapTurns true files (turns + 1) i b e inputs =
          overlapTurns true files turns (i + 1) b e inputs') →
        match overlapScan b e rest with
        | .ok l => ∀ turns, overlapTurns true files (turns + ((f :: rest).length + 1)) i b e inputs =
            some (inputs' ++ l)
        | .error (b', e') => ∃ n ≤ (f :: rest).length, ∀ turns,
            overlapTurns true files (turns + n) i b e inputs =
              overlapTurns true files turns 0 b' e' [] := by
      intro inputs' hstep
      have hrec := ih hdrop inputs'
      cases hs : overlapScan b e rest with
      | ok l =>
        rw [hs] at hrec
        exact fun turns => (hstep _).trans (hrec turns)
      | error r =>
        obtain ⟨b', e'⟩ := r
        rw [hs] at hrec
        obtain ⟨n, hn, hrec⟩ := hrec
        exact ⟨n + 1, Nat.succ_le_succ hn, fun turns => (hstep _).trans (hrec turns)⟩
    unfold overlapScan
    split_ifs with h1 h2 h3 h4
    · refine hgo inputs fun turns => ?_
      rw [overlapTurns, hget]
      exact if_pos h1
    · refine hgo inputs fun turns => ?_
      rw [overlapTurns, hget]
      exact (if_neg h1).trans (if_pos h2)
    · refine ⟨1, Nat.succ_le_succ (Nat.zero_le _), fun turns => ?_⟩
      rw [overlapTurns, hget]
      exact (if_neg h1).trans ((if_neg h2).trans (if_pos h3))
    · refine ⟨1, Nat.succ_le_succ (Nat.zero_le _), fun turns => ?_⟩
      rw [overlapTurns, hget]
      exact (if_neg h1).trans ((if_neg h2).trans ((if_neg h3).trans (if_pos h4)))
    · have hpush := hgo (inputs ++ [f]) fun turns => by
        rw [overlapTurns, hget]
        exact (if_neg h1).trans ((if_neg h2).trans ((if_neg h3).trans (if_neg h4)))
      cases hs : overlapScan b e rest with
      | ok l =>
        rw [hs] at hpush
        intro turns
        rw [hpush turns, append_assoc, singleton_append]
      | error r =>
        rw [hs] at hpush
        exact hpush

theorem overlapTurns_eq_loop {fuel : Nat} {b e : Option K} (h : overlapMeasure files b e < fuel) :
    ∃ n, ∀ turns, overlapTurns true files (turns + n) 0 b e [] =
      some (overlapLoop files fuel b e) := by
  induction fuel generalizing b e with
  | zero => omega
  | succ fuel ih =>
    have hscan := overlapTurns_scan (b := b) (e := e) (files.drop_zero) []
    unfold overlapLoop
    cases hs : overlapScan b e files with
    | ok l =>
      rw [hs] at hscan
      exact ⟨_, hscan⟩
    | error r =>
      obtain ⟨b', e'⟩ := r
      rw [hs] at hscan
      obtain ⟨n, -, hscan⟩ := hscan
      have hlt := overlapMeasure_lt hs
      obtain ⟨n', hrec⟩ := ih (b := b') (e := e') (by omega)
      refine ⟨n' + n, fun turns => ?_⟩
      rw [← Nat.add_assoc, hscan]
      exact hrec turns

theorem overlapTurns_deeper {b e : Option K}
    {rest : List (FileMetaData K)} {i : Nat} (hrest : files.drop i = rest)
    (inputs : List (FileMetaData K)) (turns : Nat) :
    overlapTurns false files (turns + (rest.length + 1)) i b e inputs =
      some (inputs ++ rest.filter (FileMetaData.meets b e)) := by
  induction rest generalizing i inputs with
  | nil =>
    have hget : files[i]? = none := by rw [← head?_drop, hrest]; rfl
    rw [length_nil, overlapTurns, hget, filter_nil, append_nil]
  | cons f rest ih =>
    have hget : files[i]? = some f := by rw [← head?_drop, hrest]; rfl
    have hdrop : files.drop (i + 1) = rest := by rw [← drop_drop, hrest]; rfl
    rw [length_cons, ← Nat.add_assoc, overlapTurns, hget]
    dsimp only
    split_ifs with h1 h2 h3 h4
    · rw [filter_cons_of_neg (by simp [FileMetaData.meets, h1])]
      exact ih hdrop inputs
    · rw [filter_cons_of_neg (by simp [FileMetaData.meets, h2])]
      exact ih hdrop inputs
    · cases h3
    · cases h4
    · simp_all [filter_cons_of_pos, FileMetaData.meets, append_assoc]

end

/-- `GetOverlappingInputs` ends. At level 0 it finds the files that meet the least range that
    contains the given one and, on each side that has a bound, every file that it meets; at a
    deeper level it finds the files that meet the range. -/
theorem getOverlappingInputs_least (v : Version K) (level : Nat)
    (rangeBegin rangeEnd : Option (InternalKey K)) :
    (∃ n, ∀ turns, n ≤ turns →
      overlapTurns (decide (level = 0)) (v.files level) turns 0 (rangeBegin.map InternalKey.userKey)
        (rangeEnd.map InternalKey.userKey) [] =
      some (v.getOverlappingInputs level rangeBegin rangeEnd)) ∧
    (level = 0 → ∃ b e,
      v.getOverlappingInputs level rangeBegin rangeEnd =
        (v.files level).filter (FileMetaData.meets b e) ∧
      Covering (v.files level) (rangeBegin.map InternalKey.userKey)
        (rangeEnd.map InternalKey.userKey) b e ∧
      ∀ b' e', Covering (v.files level) (rangeBegin.map InternalKey.userKey)
          (rangeEnd.map InternalKey.userKey) b' e' →
        Option.Rel (· ≤ ·) b' b ∧ Option.Rel (· ≤ ·) e e') ∧
    (1 ≤ level → v.getOverlappingInputs level rangeBegin rangeEnd =
      (v.files level).filter (FileMetaData.meets (rangeBegin.map InternalKey.userKey)
        (rangeEnd.map InternalKey.userKey))) := by
  have hfuel := Nat.lt_succ_of_le (overlapMeasure_le (v.files 0)
    (rangeBegin.map InternalKey.userKey) (rangeEnd.map InternalKey.userKey))
  refine ⟨?_, ?_, ?_⟩
  · obtain rfl | hpos := Nat.eq_zero_or_pos level
    · obtain ⟨n, h⟩ := overlapTurns_eq_loop hfuel
      refine ⟨n, fun turns hn => ?_⟩
      rw [← Nat.sub_add_cancel hn]
      exact h (turns - n)
    · refine ⟨(v.files level).length + 1, fun turns hn => ?_⟩
      have h := overlapTurns_deeper (b := rangeBegin.map InternalKey.userKey)
        (e := rangeEnd.map InternalKey.userKey) (v.files level).drop_zero []
        (turns - ((v.files level).length + 1))
      rw [Nat.sub_add_cancel hn] at h
      rw [decide_eq_false hpos.ne', h]
      unfold Version.getOverlappingInputs
      rw [if_neg hpos.ne']
      rfl
  · rintro rfl
    exact overlapLoop_least hfuel
  · intro hpos
    exact if_neg (by omega)

def chained : Version Nat where
  files
    | 0 => [⟨5, 10, ⟨1, 9⟩, ⟨3, 9⟩⟩, ⟨6, 10, ⟨2, 17⟩, ⟨5, 17⟩⟩, ⟨7, 10, ⟨5, 18⟩, ⟨7, 18⟩⟩,
        ⟨8, 10, ⟨9, 19⟩, ⟨9, 19⟩⟩]
    | _ => []
  files_eq_nil
    | 0, h => absurd h (by decide)
    | _ + 1, _ => rfl

theorem getOverlappingInputs_least_chained :
    ((chained.getOverlappingInputs 0 (some ⟨7, 0⟩) (some ⟨7, 0⟩)).map FileMetaData.number =
      [5, 6, 7]) ∧
    ∃ b e, chained.getOverlappingInputs 0 (some ⟨7, 0⟩) (some ⟨7, 0⟩) =
        (chained.files 0).filter (FileMetaData.meets b e) ∧
      Covering (chained.files 0) (some 7) (some 7) b e := by
  obtain ⟨b, e, heq, hcover, -⟩ :=
    (getOverlappingInputs_least chained 0 (some ⟨7, 0⟩) (some ⟨7, 0⟩)).2.1 rfl
  exact ⟨by decide, b, e, heq, hcover⟩

/-! ## Ranges and boundary files -/

/-- One turn of the loop of `GetRange`. -/
def widenRange (r : InternalKey K × InternalKey K) (f : FileMetaData K) :
    InternalKey K × InternalKey K :=
  (if f.smallest < r.1 then f.smallest else r.1, if r.2 < f.largest then f.largest else r.2)

def getRange [Inhabited K] : List (FileMetaData K) → InternalKey K × InternalKey K
  | [] => (InternalKey.cleared, InternalKey.cleared)
  | f :: rest => rest.foldl widenRange (f.smallest, f.largest)

def getRange2 [Inhabited K] (inputs1 inputs2 : List (FileMetaData K)) :
    InternalKey K × InternalKey K :=
  getRange (inputs1 ++ inputs2)

def findLargestKey : List (FileMetaData K) → Option (InternalKey K)
  | [] => none
  | f :: rest =>
    some (rest.foldl (fun key g => if key < g.largest then g.largest else key) f.largest)

/-- `f` goes on with the user key of `largestKey`. -/
def IsBoundary (largestKey : InternalKey K) (f : FileMetaData K) : Prop :=
  largestKey < f.smallest ∧ f.smallest.userKey = largestKey.userKey

instance (largestKey : InternalKey K) (f : FileMetaData K) : Decidable (IsBoundary largestKey f) :=
  inferInstanceAs (Decidable (_ ∧ _))

def findSmallestBoundaryFile (levelFiles : List (FileMetaData K)) (largestKey : InternalKey K) :
    Option (FileMetaData K) :=
  levelFiles.foldl (fun best f =>
    if IsBoundary largestKey f then
      match best with
      | none => some f
      | some g => if f.smallest < g.smallest then some f else some g
    else best) none

/-- The files the loop of `AddBoundaryInputs` appends. -/
def boundaryLoop (levelFiles : List (FileMetaData K)) : Nat → InternalKey K →
    List (FileMetaData K)
  | 0, _ => []
  | fuel + 1, largestKey =>
    match findSmallestBoundaryFile levelFiles largestKey with
    | none => []
    | some f => f :: boundaryLoop levelFiles fuel f.largest

def addBoundaryInputs (levelFiles compactionFiles : List (FileMetaData K)) :
    List (FileMetaData K) :=
  match findLargestKey compactionFiles with
  | none => compactionFiles
  | some largestKey =>
    compactionFiles ++ boundaryLoop levelFiles (levelFiles.length + 1) largestKey

/-- `m` is the largest key of `files`. -/
def IsTop (m : InternalKey K) (files : List (FileMetaData K)) : Prop :=
  (∀ f ∈ files, f.largest ≤ m) ∧ ∃ f ∈ files, f.largest = m

theorem foldl_widenRange (rest : List (FileMetaData K)) :
    ∀ r : InternalKey K × InternalKey K,
      ((rest.foldl widenRange r).1 ≤ r.1 ∧ r.2 ≤ (rest.foldl widenRange r).2) ∧
      ∀ f ∈ rest, (rest.foldl widenRange r).1 ≤ f.smallest ∧
        f.largest ≤ (rest.foldl widenRange r).2 := by
  induction rest with
  | nil => intro r; exact ⟨⟨le_refl _, le_refl _⟩, by simp⟩
  | cons g rest ih =>
    intro r
    obtain ⟨⟨h1, h2⟩, hall⟩ := ih (widenRange r g)
    have hw1 : (widenRange r g).1 ≤ r.1 ∧ (widenRange r g).1 ≤ g.smallest := by
      unfold widenRange
      by_cases h : g.smallest < r.1
      · simp only [h, if_true]; exact ⟨h.le, le_refl _⟩
      · simp only [h, if_false]; exact ⟨le_refl _, not_lt.mp h⟩
    have hw2 : r.2 ≤ (widenRange r g).2 ∧ g.largest ≤ (widenRange r g).2 := by
      unfold widenRange
      by_cases h : r.2 < g.largest
      · simp only [h, if_true]; exact ⟨h.le, le_refl _⟩
      · simp only [h, if_false]; exact ⟨le_refl _, not_lt.mp h⟩
    refine ⟨⟨h1.trans hw1.1, hw2.1.trans h2⟩, ?_⟩
    intro f hf
    obtain rfl | hf := mem_cons.mp hf
    · exact ⟨h1.trans hw1.2, hw2.2.trans h2⟩
    · exact hall f hf

theorem getRange_covers [Inhabited K] {files : List (FileMetaData K)} {f : FileMetaData K}
    (hf : f ∈ files) : (getRange files).1 ≤ f.smallest ∧ f.largest ≤ (getRange files).2 := by
  cases files with
  | nil => simp at hf
  | cons g rest =>
    obtain ⟨hr, hall⟩ := foldl_widenRange rest (g.smallest, g.largest)
    obtain rfl | hf := mem_cons.mp hf
    · exact hr
    · exact hall f hf

theorem foldl_widenRange_mem (rest : List (FileMetaData K)) :
    ∀ r : InternalKey K × InternalKey K, (rest.foldl widenRange r).2 = r.2 ∨
      ∃ f ∈ rest, (rest.foldl widenRange r).2 = f.largest := by
  induction rest with
  | nil => intro r; exact Or.inl rfl
  | cons g rest ih =>
    intro r
    obtain h | ⟨f, hf, h⟩ := ih (widenRange r g)
    · rw [foldl_cons, h]
      unfold widenRange
      by_cases hlt : r.2 < g.largest
      · simp [hlt]
      · simp [hlt]
    · exact Or.inr ⟨f, mem_cons_of_mem _ hf, h⟩

theorem getRange_largest_mem [Inhabited K] {files : List (FileMetaData K)} (h : files ≠ []) :
    ∃ f ∈ files, (getRange files).2 = f.largest := by
  cases files with
  | nil => exact absurd rfl h
  | cons g rest =>
    obtain h | ⟨f, hf, h⟩ := foldl_widenRange_mem rest (g.smallest, g.largest)
    · exact ⟨g, mem_cons_self, h⟩
    · exact ⟨f, mem_cons_of_mem _ hf, h⟩

theorem findLargestKey_eq_none {files : List (FileMetaData K)} :
    findLargestKey files = none ↔ files = [] := by
  cases files <;> simp [findLargestKey]

theorem isTop_findLargestKey {files : List (FileMetaData K)} {m : InternalKey K}
    (h : findLargestKey files = some m) : IsTop m files := by
  cases files with
  | nil => cases h
  | cons f rest =>
    injection h with h
    subst h
    -- the fold keeps a largest key of the files seen
    suffices hfold : ∀ (rest seen : List (FileMetaData K)) (key : InternalKey K), IsTop key seen →
        IsTop (rest.foldl (fun key g => if key < g.largest then g.largest else key) key)
          (seen ++ rest) from
      hfold rest [f] f.largest ⟨by simp, f, by simp, rfl⟩
    intro rest
    induction rest with
    | nil => intro seen key h; simpa using h
    | cons g rest ih =>
      intro seen key hkey
      obtain ⟨hle, x, hx, hxk⟩ := hkey
      have hnext : IsTop (if key < g.largest then g.largest else key) (seen ++ [g]) := by
        by_cases hg : key < g.largest
        · rw [if_pos hg]
          refine ⟨?_, g, by simp, rfl⟩
          intro f hf
          obtain hf | hf := mem_append.mp hf
          · exact (hle f hf).trans hg.le
          · rw [mem_singleton.mp hf]
        · rw [if_neg hg]
          refine ⟨?_, x, by simp [hx], hxk⟩
          intro f hf
          obtain hf | hf := mem_append.mp hf
          · exact hle f hf
          · rw [mem_singleton.mp hf]; exact not_lt.mp hg
      have := ih (seen ++ [g]) _ hnext
      simpa using this

theorem findSmallestBoundaryFile_spec (levelFiles : List (FileMetaData K))
    (key : InternalKey K) :
    match findSmallestBoundaryFile levelFiles key with
    | none => ∀ f ∈ levelFiles, ¬ IsBoundary key f
    | some f => f ∈ levelFiles ∧ IsBoundary key f ∧
        ∀ g ∈ levelFiles, IsBoundary key g → f.smallest ≤ g.smallest := by
  unfold findSmallestBoundaryFile
  -- the fold keeps the best of the files seen
  suffices hfold : ∀ (rest seen : List (FileMetaData K)) (best : Option (FileMetaData K)),
      (match best with
        | none => ∀ f ∈ seen, ¬ IsBoundary key f
        | some f => f ∈ seen ∧ IsBoundary key f ∧
            ∀ g ∈ seen, IsBoundary key g → f.smallest ≤ g.smallest) →
      (match rest.foldl (fun best f =>
          if IsBoundary key f then
            match best with
            | none => some f
            | some g => if f.smallest < g.smallest then some f else some g
          else best) best with
        | none => ∀ f ∈ seen ++ rest, ¬ IsBoundary key f
        | some f => f ∈ seen ++ rest ∧ IsBoundary key f ∧
            ∀ g ∈ seen ++ rest, IsBoundary key g → f.smallest ≤ g.smallest) from
    hfold levelFiles [] none (by simp)
  intro rest
  induction rest with
  | nil => intro seen best h; simpa using h
  | cons g rest ih =>
    intro seen best h
    rw [foldl_cons, show seen ++ g :: rest = (seen ++ [g]) ++ rest by simp]
    apply ih
    by_cases hg : IsBoundary key g
    · grind
    · grind

/-! ## Runs of neighbours -/

/-- Every file outside `inputs` lies before all of them or after all of them. -/
def Convex (files inputs : List (FileMetaData K)) : Prop :=
  ∀ g ∈ files, g ∉ inputs →
    (∀ f ∈ inputs, g.largest < f.smallest) ∨ (∀ f ∈ inputs, f.largest < g.smallest)

/-- A file outside `inputs` holds no entries older than those of an input of the same user
    key: it lies before the input, or after it with larger user keys only. -/
def UpClosed (files inputs : List (FileMetaData K)) : Prop :=
  ∀ f ∈ inputs, ∀ g ∈ files, g ∉ inputs →
    g.largest < f.smallest ∨ f.largest.userKey < g.smallest.userKey

theorem Convex.boundary {files inputs : List (FileMetaData K)} {m : InternalKey K}
    {b : FileMetaData K} (h : Convex files inputs) (hsort : SortedDisjoint files)
    (hr : ∀ f ∈ files, f.smallest ≤ f.largest) (hsub : ∀ f ∈ inputs, f ∈ files)
    (hm : IsTop m inputs) (hb : b ∈ files) (hbm : IsBoundary m b)
    (hmin : ∀ g ∈ files, IsBoundary m g → b.smallest ≤ g.smallest) :
    Convex files (inputs ++ [b]) := by
  obtain ⟨hle, top, htop, htopm⟩ := hm
  intro g hg hgn
  have hgi : g ∉ inputs := fun h => hgn (mem_append_left _ h)
  have hgb : g ≠ b := fun h => hgn (by simp [h])
  obtain hbefore | hafter := h g hg hgi
  · left
    intro f hf
    obtain hf | hf := mem_append.mp hf
    · exact hbefore f hf
    · rw [mem_singleton.mp hf]
      calc g.largest < top.smallest := hbefore top htop
        _ ≤ top.largest := hr top (hsub top htop)
        _ = m := htopm
        _ < b.smallest := hbm.1
  · right
    have hmg : m < g.smallest := htopm ▸ hafter top htop
    -- a file between the run and `b` would be a boundary file before `b`
    have hbg : b.largest < g.smallest := by
      obtain h | h := pairwise_either hsort hg hb hgb
      · have hgb' : g.smallest < b.smallest := (hr g hg).trans_lt h
        have hu : g.smallest.userKey = m.userKey :=
          le_antisymm ((InternalKey.userKey_mono hgb'.le).trans hbm.2.le)
            (InternalKey.userKey_mono hmg.le)
        exact absurd (hmin g hg ⟨hmg, hu⟩) (not_le.mpr hgb')
      · exact h
    intro f hf
    obtain hf | hf := mem_append.mp hf
    · exact hafter f hf
    · rw [mem_singleton.mp hf]; exact hbg

/-- The loop of `AddBoundaryInputs` from the largest key `m` to its end: the files that it appends,
    and the last largest key. -/
inductive BoundaryRun (files : List (FileMetaData K)) :
    InternalKey K → List (FileMetaData K) → InternalKey K → Prop
  | stop {m : InternalKey K} (h : findSmallestBoundaryFile files m = none) : BoundaryRun files m [] m
  | step {m m' : InternalKey K} {b : FileMetaData K} {appended : List (FileMetaData K)}
      (h : findSmallestBoundaryFile files m = some b)
      (hrest : BoundaryRun files b.largest appended m') : BoundaryRun files m (b :: appended) m'

theorem exists_boundaryRun {files : List (FileMetaData K)}
    (hr : ∀ f ∈ files, f.smallest ≤ f.largest) {fuel : Nat} {m : InternalKey K}
    (hfuel : files.countP (fun f => decide (m < f.smallest)) < fuel) :
    ∃ m', BoundaryRun files m (boundaryLoop files fuel m) m' := by
  induction fuel generalizing m with
  | zero => omega
  | succ fuel ih =>
    unfold boundaryLoop
    have hspec := findSmallestBoundaryFile_spec files m
    cases hb : findSmallestBoundaryFile files m with
    | none => exact ⟨m, .stop hb⟩
    | some b =>
      rw [hb] at hspec
      obtain ⟨hbf, hbm, -⟩ := hspec
      have hlt : files.countP (fun f => decide (b.largest < f.smallest)) <
          files.countP (fun f => decide (m < f.smallest)) := by
        refine countP_lt_countP ?_ hbf ?_ ?_
        · intro f _ hf
          simp only [decide_eq_true_eq] at hf ⊢
          exact (hbm.1.trans_le (hr b hbf)).trans hf
        · simpa using hr b hbf
        · simpa using hbm.1
      obtain ⟨m', hrun⟩ := ih (m := b.largest) (by omega)
      exact ⟨m', .step hb hrun⟩

theorem BoundaryRun.spec {files : List (FileMetaData K)} {m m' : InternalKey K}
    {appended : List (FileMetaData K)} (h : BoundaryRun files m appended m')
    (hr : ∀ f ∈ files, f.smallest ≤ f.largest) :
    ∀ inputs : List (FileMetaData K), IsTop m inputs →
      IsTop m' (inputs ++ appended) ∧ (∀ f ∈ files, ¬ IsBoundary m' f) ∧
        (∀ f ∈ appended, f ∈ files ∧ f ∉ inputs) ∧ appended.Nodup ∧
        (SortedDisjoint inputs → SortedDisjoint (inputs ++ appended)) ∧
        (SortedDisjoint files → (∀ f ∈ inputs, f ∈ files) → Convex files inputs →
          Convex files (inputs ++ appended)) := by
  induction h with
  | @stop m hstop =>
    intro inputs hm
    have hspec := findSmallestBoundaryFile_spec files m
    rw [hstop] at hspec
    rw [append_nil]
    exact ⟨hm, hspec, nofun, nodup_nil, id, fun _ _ => id⟩
  | @step m m' b appended hb _ ih =>
    intro inputs hm
    have hspec := findSmallestBoundaryFile_spec files m
    rw [hb] at hspec
    obtain ⟨hbf, hbm, hmin⟩ := hspec
    have hmb : m < b.largest := hbm.1.trans_le (hr b hbf)
    have hm' : IsTop b.largest (inputs ++ [b]) := by
      refine ⟨forall_mem_append.mpr ⟨fun f hf => (hm.1 f hf).trans hmb.le, ?_⟩, b, by simp, rfl⟩
      exact forall_mem_singleton.mpr (le_refl _)
    -- the keys of the inputs are at most `m`, so `b` is none of them
    have hbn : b ∉ inputs := fun hin => (hmb.trans_le (hm.1 b hin)).false
    have hsorted' : SortedDisjoint inputs → SortedDisjoint (inputs ++ [b]) := by
      intro h
      refine pairwise_append.mpr ⟨h, pairwise_singleton _ _, fun f hf g hg => ?_⟩
      rw [mem_singleton.mp hg]
      exact (hm.1 f hf).trans_lt hbm.1
    obtain ⟨htop, hno, hin, hnodup, hsorted, hconv⟩ := ih (inputs ++ [b]) hm'
    rw [append_assoc, singleton_append] at htop hsorted hconv
    refine ⟨htop, hno, forall_mem_cons.mpr ⟨⟨hbf, hbn⟩, fun f hf => ?_⟩,
      nodup_cons.mpr ⟨fun hf => ?_, hnodup⟩, fun h => hsorted (hsorted' h),
      fun hsort hsub hc => ?_⟩
    · exact ⟨(hin f hf).1, fun hmem => (hin f hf).2 (mem_append_left _ hmem)⟩
    · exact (hin b hf).2 (mem_append_right _ mem_cons_self)
    · refine hconv hsort ?_ (hc.boundary hsort hr hsub hm hbf hbm hmin)
      exact forall_mem_append.mpr ⟨hsub, forall_mem_singleton.mpr hbf⟩

theorem addBoundaryInputs_eq {files inputs : List (FileMetaData K)} {m : InternalKey K}
    (hr : ∀ f ∈ files, f.smallest ≤ f.largest) (hm : findLargestKey inputs = some m) :
    ∃ appended m', BoundaryRun files m appended m' ∧
      addBoundaryInputs files inputs = inputs ++ appended := by
  have hfuel : files.countP (fun f => decide (m < f.smallest)) < files.length + 1 :=
    Nat.lt_succ_of_le countP_le_length
  obtain ⟨m', hrun⟩ := exists_boundaryRun hr hfuel
  refine ⟨_, m', hrun, ?_⟩
  unfold addBoundaryInputs
  rw [hm]

/-- **Boundary files.** `AddBoundaryInputs` keeps its argument, adds files of the level, and
    stops when no file goes on with the last user key. -/
theorem addBoundaryInputs_spec {files inputs : List (FileMetaData K)}
    (hr : ∀ f ∈ files, f.smallest ≤ f.largest) (hsub : ∀ f ∈ inputs, f ∈ files) :
    (∀ f ∈ inputs, f ∈ addBoundaryInputs files inputs) ∧
    (∀ f ∈ addBoundaryInputs files inputs, f ∈ files) ∧
    (addBoundaryInputs files inputs = [] ∨ ∃ m, IsTop m (addBoundaryInputs files inputs) ∧
      ∀ f ∈ files, ¬ IsBoundary m f) ∧
    (SortedDisjoint inputs → SortedDisjoint (addBoundaryInputs files inputs)) ∧
    (SortedDisjoint files → Convex files inputs →
      Convex files (addBoundaryInputs files inputs)) := by
  cases hm : findLargestKey inputs with
  | none =>
    unfold addBoundaryInputs
    rw [hm]
    exact ⟨fun _ h => h, hsub, Or.inl (findLargestKey_eq_none.mp hm), fun h => h, fun _ h => h⟩
  | some m =>
    obtain ⟨appended, m', hrun, heq⟩ := addBoundaryInputs_eq hr hm
    obtain ⟨htop, hno, hin, -, hsorted, hconv⟩ := hrun.spec hr inputs (isTop_findLargestKey hm)
    rw [heq]
    exact ⟨fun f hf => mem_append_left _ hf,
      forall_mem_append.mpr ⟨hsub, fun f hf => (hin f hf).1⟩, Or.inr ⟨m', htop, hno⟩, hsorted,
      fun hsort => hconv hsort hsub⟩

/-- **The search for boundary files ends**, for any files to begin with: it appends files of the
    level that were not there, and none is left that goes on with the user key of the largest key
    of all files collected. -/
theorem boundary_search {files inputs : List (FileMetaData K)}
    (hr : ∀ f ∈ files, f.smallest ≤ f.largest) :
    (inputs = [] ∧ addBoundaryInputs files inputs = []) ∨
    ∃ m appended m', findLargestKey inputs = some m ∧ BoundaryRun files m appended m' ∧
      addBoundaryInputs files inputs = inputs ++ appended ∧
      (∀ f ∈ appended, f ∈ files ∧ f ∉ inputs) ∧ appended.Nodup ∧
      IsTop m' (inputs ++ appended) ∧
      ∀ f ∈ files, ¬(m' < f.smallest ∧ f.smallest.userKey = m'.userKey) := by
  cases hm : findLargestKey inputs with
  | none =>
    rw [findLargestKey_eq_none] at hm
    subst hm
    exact Or.inl ⟨rfl, rfl⟩
  | some m =>
    obtain ⟨appended, m', hrun, heq⟩ := addBoundaryInputs_eq hr hm
    obtain ⟨htop, hno, hin, hnodup, -, -⟩ := hrun.spec hr inputs (isTop_findLargestKey hm)
    exact Or.inr ⟨m, appended, m', rfl, hrun, heq, hin, hnodup, htop, hno⟩

theorem boundary_search_chain : ∃ appended : List (FileMetaData Nat),
    addBoundaryInputs [⟨1, 1, ⟨5, 9⟩, ⟨5, 8⟩⟩, ⟨2, 1, ⟨5, 7⟩, ⟨5, 6⟩⟩, ⟨3, 1, ⟨5, 5⟩, ⟨6, 1⟩⟩]
      [⟨1, 1, ⟨5, 9⟩, ⟨5, 8⟩⟩] = [⟨1, 1, ⟨5, 9⟩, ⟨5, 8⟩⟩] ++ appended ∧ appended.Nodup := by
  have hr : ∀ f ∈ ([⟨1, 1, ⟨5, 9⟩, ⟨5, 8⟩⟩, ⟨2, 1, ⟨5, 7⟩, ⟨5, 6⟩⟩, ⟨3, 1, ⟨5, 5⟩, ⟨6, 1⟩⟩] :
      List (FileMetaData Nat)), f.smallest ≤ f.largest := by decide +kernel
  obtain ⟨hnil, -⟩ | ⟨_, appended, _, -, -, heq, -, hnodup, -⟩ :=
    @boundary_search Nat _ _ [⟨1, 1, ⟨5, 9⟩, ⟨5, 8⟩⟩] hr
  · cases hnil
  · exact ⟨appended, heq, hnodup⟩

theorem UpClosed.of_convex {files inputs : List (FileMetaData K)} (hconv : Convex files inputs)
    (htop : inputs = [] ∨ ∃ m, IsTop m inputs ∧ ∀ f ∈ files, ¬ IsBoundary m f) :
    UpClosed files inputs := by
  intro f hf g hg hgn
  obtain hbefore | hafter := hconv g hg hgn
  · exact Or.inl (hbefore f hf)
  · right
    obtain rfl | ⟨m, ⟨hle, top, htopm, rfl⟩, hno⟩ := htop
    · simp at hf
    · have hlt := hafter top htopm
      have hu : top.largest.userKey < g.smallest.userKey := by
        refine lt_of_le_of_ne (InternalKey.userKey_mono hlt.le) ?_
        intro hu
        exact hno g hg ⟨hlt, hu.symm⟩
      exact (InternalKey.userKey_mono (hle f hf)).trans_lt hu

theorem convex_filter_meets {files : List (FileMetaData K)} (hsort : SortedDisjoint files)
    (hr : ∀ f ∈ files, f.smallest ≤ f.largest) (b e : Option K) :
    Convex files (files.filter (FileMetaData.meets b e)) := by
  intro g hg hgn
  have hgm : ¬ g.meets b e = true := fun h => hgn (mem_filter.mpr ⟨hg, h⟩)
  have hne : ∀ f ∈ files.filter (FileMetaData.meets b e), f ∈ files ∧ f.meets b e = true ∧ g ≠ f := by
    intro f hf
    obtain ⟨hfm, hfmeets⟩ := mem_filter.mp hf
    exact ⟨hfm, hfmeets, fun h => hgm (h ▸ hfmeets)⟩
  rw [FileMetaData.meets_iff, not_and_or] at hgm
  obtain hgm | hgm := hgm
  · -- `g` ends before the range starts
    push Not at hgm
    obtain ⟨x, hx, hgx⟩ := hgm
    left
    intro f hf
    obtain ⟨hfm, hmeets, hne⟩ := hne f hf
    have hxf := (FileMetaData.meets_iff.mp hmeets).1 x hx
    obtain h | h := pairwise_either hsort hg hfm hne
    · exact h
    · have := InternalKey.userKey_mono (h.le.trans (hr g hg))
      exact absurd (hgx.trans_le hxf) (not_lt.mpr this)
  · push Not at hgm
    obtain ⟨y, hy, hgy⟩ := hgm
    right
    intro f hf
    obtain ⟨hfm, hmeets, hne⟩ := hne f hf
    have hyf := (FileMetaData.meets_iff.mp hmeets).2 y hy
    obtain h | h := pairwise_either hsort hg hfm hne
    · have := InternalKey.userKey_mono ((hr g hg).trans h.le)
      exact absurd (hyf.trans_lt hgy) (not_lt.mpr this)
    · exact h

/-- At level 0: no file outside `inputs` shares a user key with one of them. -/
def Isolated (files inputs : List (FileMetaData K)) : Prop :=
  ∀ f ∈ inputs, ∀ g ∈ files, g ∉ inputs →
    g.largest.userKey < f.smallest.userKey ∨ f.largest.userKey < g.smallest.userKey

section

variable {files inputs : List (FileMetaData K)} (h : Isolated files inputs)
include h

theorem Isolated.upClosed :
    UpClosed files inputs := by
  intro f hf g hg hgn
  obtain h | h := h f hf g hg hgn
  · exact Or.inl (InternalKey.lt_of_userKey_lt h)
  · exact Or.inr h

theorem Isolated.addBoundaryInputs_eq (hr : ∀ f ∈ files, f.smallest ≤ f.largest)
    (hsub : ∀ f ∈ inputs, f ∈ files) : addBoundaryInputs files inputs = inputs := by
  unfold addBoundaryInputs
  cases hm : findLargestKey inputs with
  | none => rfl
  | some m =>
    obtain ⟨hle, top, htop, rfl⟩ := isTop_findLargestKey hm
    have hspec := findSmallestBoundaryFile_spec files top.largest
    cases hb : findSmallestBoundaryFile files top.largest with
    | none => simp [boundaryLoop, hb]
    | some b =>
      exfalso
      rw [hb] at hspec
      obtain ⟨hbf, ⟨hlt, hu⟩, -⟩ := hspec
      have hbn : b ∉ inputs := fun h => absurd ((hr b hbf).trans (hle b h)) (not_le.mpr hlt)
      obtain h | h := h top htop b hbf hbn
      · grind [InternalKey.userKey_mono, not_lt]
      · exact absurd hu h.ne'

end

/-- The user-key range of `g` meets the one from the smallest to the largest user key of
    `files`. -/
def FileMetaData.MeetsHull (files : List (FileMetaData K)) (g : FileMetaData K) : Prop :=
  (∃ f ∈ files, f.smallest.userKey ≤ g.largest.userKey) ∧
    ∃ f ∈ files, g.smallest.userKey ≤ f.largest.userKey

theorem mem_overlapLoop_of_meetsHull {files : List (FileMetaData K)} {b e : Option K}
    {g : FileMetaData K} (hg : g ∈ files)
    (h : g.MeetsHull (overlapLoop files (2 * files.length + 1) b e)) :
    g ∈ overlapLoop files (2 * files.length + 1) b e := by
  obtain ⟨b', e', hl, -, hin⟩ :=
    overlapLoop_spec (Nat.lt_succ_of_le (overlapMeasure_le files b e))
  rw [hl] at h ⊢
  obtain ⟨⟨f, hf, hlo⟩, f', hf', hhi⟩ := h
  obtain ⟨hff, hfm⟩ := mem_filter.mp hf
  obtain ⟨hff', hfm'⟩ := mem_filter.mp hf'
  refine mem_filter.mpr ⟨hg, FileMetaData.meets_iff.mpr ⟨?_, ?_⟩⟩
  · exact fun x hx => ((hin f hff hfm).1 x hx).trans hlo
  · exact fun y hy => hhi.trans ((hin f' hff' hfm').2 y hy)

theorem isolated_overlapLoop (files : List (FileMetaData K)) (b e : Option K) :
    Isolated files (overlapLoop files (2 * files.length + 1) b e) := by
  intro f hf g hg hgn
  by_contra hmeet
  push Not at hmeet
  exact hgn (mem_overlapLoop_of_meetsHull hg ⟨⟨f, hf, hmeet.1⟩, f, hf, hmeet.2⟩)

end LevelDB
