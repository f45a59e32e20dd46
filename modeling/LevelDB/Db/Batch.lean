/-
  Write batches (`db/write_batch.cc`) and what a history of operations means.

  `MemTableInserter` numbers the operations of a batch from the batch's sequence number on
  (`entriesFrom`). At sequence number `s` a database should read as the map that its first `s`
  operations build (`applyOps`).
-/
import LevelDB.DbFormat

namespace LevelDB

open List

variable {K V : Type}

inductive Op (K V : Type) where
  | put (key : K) (value : V)
  | delete (key : K)
  deriving DecidableEq, Repr

namespace Op

def key : Op K V → K
  | put k _ => k
  | delete k => k

/-- What `MemTableInserter` adds for the operation. -/
def entry [Inhabited V] (op : Op K V) (sequence : Nat) : Entry K V :=
  match op with
  | put k v => ⟨⟨k, packSequenceAndType sequence .value⟩, v⟩
  | delete k => ⟨⟨k, packSequenceAndType sequence .deletion⟩, default⟩

def value? : Op K V → Option V
  | put _ v => some v
  | delete _ => none

variable [Inhabited V]

@[simp] theorem entry_userKey (op : Op K V) (s : Nat) : (op.entry s).userKey = op.key := by
  cases op <;> rfl

@[simp] theorem entry_sequence (op : Op K V) (s : Nat) : (op.entry s).sequence = s := by
  cases op with
  | put k v => exact ofParsed_sequence ⟨k, s, .value⟩
  | delete k => exact ofParsed_sequence ⟨k, s, .deletion⟩

theorem entry_wellFormed (op : Op K V) (s : Nat) : (op.entry s).key.WellFormed := by
  cases op with
  | put k v => exact ofParsed_wellFormed ⟨k, s, .value⟩
  | delete k => exact ofParsed_wellFormed ⟨k, s, .deletion⟩

theorem entry_isPut_iff (op : Op K V) (s : Nat) (v : V) :
    (op.entry s).IsPut v ↔ op.value? = some v := by
  cases op with
  | put k x =>
    constructor
    · intro ⟨p, _, _, hv⟩
      exact congrArg some hv
    · intro h
      exact ⟨⟨k, s, .value⟩, parseInternalKey_ofParsed ⟨k, s, .value⟩, rfl, Option.some.inj h⟩
  | delete k =>
    constructor
    · intro ⟨p, hp, hv, _⟩
      have hd := parseInternalKey_ofParsed (⟨k, s, .deletion⟩ : ParsedInternalKey K)
      have heq := Option.some.inj (hp.symm.trans hd)
      rw [heq] at hv
      cases hv
    · intro h
      cases h

end Op

/-- The contents of a `WriteBatch`: the sequence number of its first operation, and the
    operations. -/
structure WriteBatch (K V : Type) where
  sequence : Nat
  ops : List (Op K V)
  deriving DecidableEq, Repr

/-- The entries of operations numbered from `sequence` on. -/
def entriesFrom [Inhabited V] : Nat → List (Op K V) → List (Entry K V)
  | _, [] => []
  | sequence, op :: ops => op.entry sequence :: entriesFrom (sequence + 1) ops

/-- The entries `WriteBatchInternal::InsertInto` adds. -/
def WriteBatch.entries [Inhabited V] (b : WriteBatch K V) : List (Entry K V) :=
  entriesFrom b.sequence b.ops

section Entries

variable [Inhabited V]

theorem entriesFrom_append (n : Nat) (a b : List (Op K V)) :
    entriesFrom n (a ++ b) = entriesFrom n a ++ entriesFrom (n + a.length) b := by
  induction a generalizing n with
  | nil => rfl
  | cons op a ih =>
    rw [cons_append, entriesFrom, ih, entriesFrom, cons_append, length_cons,
      Nat.add_right_comm, Nat.add_assoc]

theorem mem_entriesFrom {n : Nat} {ops : List (Op K V)} {e : Entry K V} :
    e ∈ entriesFrom n ops ↔ ∃ (i : Nat) (op : Op K V), ops[i]? = some op ∧ e = op.entry (n + i) := by
  induction ops generalizing n with
  | nil => simp [entriesFrom]
  | cons op ops ih =>
    rw [entriesFrom, mem_cons, ih]
    constructor
    · intro h
      obtain rfl | ⟨i, o, ho, rfl⟩ := h
      · exact ⟨0, op, rfl, rfl⟩
      · exact ⟨i + 1, o, ho, by rw [Nat.add_right_comm, Nat.add_assoc]⟩
    · intro ⟨i, o, ho, he⟩
      cases i with
      | zero =>
        obtain rfl := Option.some.inj ho
        exact Or.inl he
      | succ i => exact Or.inr ⟨i, o, ho, by rw [he, Nat.add_right_comm, Nat.add_assoc]⟩

theorem entriesFrom_sequence {n : Nat} {ops : List (Op K V)} {e : Entry K V}
    (h : e ∈ entriesFrom n ops) : n ≤ e.sequence ∧ e.sequence < n + ops.length := by
  obtain ⟨i, op, hi, rfl⟩ := mem_entriesFrom.mp h
  obtain ⟨hlt, -⟩ := List.getElem?_eq_some_iff.mp hi
  rw [Op.entry_sequence]
  omega

theorem entriesFrom_wellFormed {n : Nat} {ops : List (Op K V)} :
    ∀ e ∈ entriesFrom n ops, e.key.WellFormed := by
  intro e he
  obtain ⟨i, op, -, rfl⟩ := mem_entriesFrom.mp he
  exact op.entry_wellFormed _

theorem entriesFrom_unique {n : Nat} {ops : List (Op K V)} {a b : Entry K V}
    (ha : a ∈ entriesFrom n ops) (hb : b ∈ entriesFrom n ops) (h : a.sequence = b.sequence) :
    a = b := by
  obtain ⟨i, op, hi, rfl⟩ := mem_entriesFrom.mp ha
  obtain ⟨j, op', hj, rfl⟩ := mem_entriesFrom.mp hb
  rw [Op.entry_sequence, Op.entry_sequence] at h
  obtain rfl : i = j := by omega
  rw [Option.some.inj (hi.symm.trans hj)]

end Entries

/-! ## What a history means -/

section History

variable [DecidableEq K]

def applyOp (m : K → Option V) (op : Op K V) : K → Option V :=
  Function.update m op.key op.value?

def applyOps (ops : List (Op K V)) : K → Option V := ops.foldl applyOp fun _ => none

def history [Inhabited V] (ops : List (Op K V)) : Set (Entry K V) := {e | e ∈ entriesFrom 1 ops}

variable [Inhabited V]

omit [DecidableEq K] in
theorem mem_history_append {a b : List (Op K V)} {e : Entry K V} :
    e ∈ history (a ++ b) ↔ e ∈ history a ∨ e ∈ entriesFrom (a.length + 1) b := by
  change e ∈ entriesFrom 1 (a ++ b) ↔ e ∈ entriesFrom 1 a ∨ _
  rw [entriesFrom_append, mem_append, Nat.add_comm 1 a.length]

theorem visible_over {S : Set (Entry K V)} {n : Nat} (hS : ∀ e ∈ S, e.sequence ≤ n)
    {m : K → Option V} {k : K} (hm : ∀ v, Entry.Visible S k n v ↔ m k = some v)
    (ops : List (Op K V)) {s : Nat} (hs : n + ops.length ≤ s) (v : V) :
    Entry.Visible {e | e ∈ S ∨ e ∈ entriesFrom (n + 1) ops} k s v ↔
      ops.foldl applyOp m k = some v := by
  induction ops using List.reverseRecOn with
  | nil =>
    rw [foldl_nil, ← hm]
    have hle : ∀ e ∈ S, e.sequence ≤ s := fun e he => (hS e he).trans hs
    have hset : {e | e ∈ S ∨ e ∈ entriesFrom (n + 1) ([] : List (Op K V))} = S := by
      simp [entriesFrom]
    rw [hset]
    constructor
    · intro ⟨e, ⟨he, hek, _, hmax⟩, hput⟩
      exact ⟨e, ⟨he, hek, hS e he, fun x hx hxk _ => hmax x hx hxk (hle x hx)⟩, hput⟩
    · intro ⟨e, ⟨he, hek, _, hmax⟩, hput⟩
      exact ⟨e, ⟨he, hek, hle e he, fun x hx hxk _ => hmax x hx hxk (hS x hx)⟩, hput⟩
  | append_singleton ops op ih =>
    rw [length_append, length_singleton] at hs
    have hlast : ∀ e, (e ∈ S ∨ e ∈ entriesFrom (n + 1) (ops ++ [op])) ↔
        (e ∈ S ∨ e ∈ entriesFrom (n + 1) ops) ∨ e = op.entry (n + 1 + ops.length) := by
      intro e
      rw [entriesFrom_append, mem_append, or_assoc]
      simp [entriesFrom]
    have hold : ∀ e, e ∈ S ∨ e ∈ entriesFrom (n + 1) ops → e.sequence < n + 1 + ops.length := by
      intro e he
      obtain he | he := he
      · have := hS e he
        omega
      · exact (entriesFrom_sequence he).2
    have hmap : (ops ++ [op]).foldl applyOp m k =
        if k = op.key then op.value? else ops.foldl applyOp m k := by
      rw [foldl_append, foldl_cons, foldl_nil, applyOp, Function.update_apply]
    rw [hmap]
    by_cases hk : k = op.key
    · rw [if_pos hk, ← Op.entry_isPut_iff op (n + 1 + ops.length)]
      have hmem : op.entry (n + 1 + ops.length) ∈
          {e | e ∈ S ∨ e ∈ entriesFrom (n + 1) (ops ++ [op])} := (hlast _).mpr (Or.inr rfl)
      constructor
      · intro ⟨e, ⟨he, _, _, hemax⟩, hput⟩
        obtain he | rfl := (hlast e).mp he
        · have htag := hemax _ hmem (by rw [Op.entry_userKey, hk]) (by rw [Op.entry_sequence]; omega)
          have hseq := Entry.sequence_le_of_tag_le htag
          rw [Op.entry_sequence] at hseq
          exact absurd (hold e he) (not_lt.mpr hseq)
        · exact hput
      · -- the last operation is the newest entry of its key
        intro hput
        refine ⟨_, ⟨hmem, by rw [Op.entry_userKey, hk], by rw [Op.entry_sequence]; omega, ?_⟩, hput⟩
        intro x hx _ _
        obtain hx | rfl := (hlast x).mp hx
        · refine (Entry.tag_lt_of_sequence_lt ?_).le
          rw [Op.entry_sequence]
          exact hold x hx
        · exact le_refl _
    · rw [if_neg hk, ← ih (by omega)]
      refine Entry.visible_congr ?_ v
      intro e hek _
      refine (hlast e).trans ⟨?_, Or.inl⟩
      intro h
      obtain h | rfl := h
      · exact h
      · rw [Op.entry_userKey] at hek
        exact absurd hek.symm hk

theorem visible_history_all (ops : List (Op K V)) (k : K) {s : Nat} (hs : ops.length ≤ s) (v : V) :
    Entry.Visible (history ops) k s v ↔ applyOps ops k = some v := by
  have hempty : ∀ v, Entry.Visible (∅ : Set (Entry K V)) k 0 v ↔
      (fun _ => none : K → Option V) k = some v := by
    intro v
    constructor
    · intro ⟨e, ⟨he, _⟩, _⟩
      exact absurd he (Set.notMem_empty e)
    · intro h
      cases h
  have hle : 0 + ops.length ≤ s := by omega
  unfold applyOps
  rw [← visible_over (fun e he => absurd he (Set.notMem_empty e)) hempty ops hle]
  refine Entry.visible_congr ?_ v
  intro e _ _
  exact ⟨Or.inr, fun h => h.resolve_left (Set.notMem_empty e)⟩

/-- **Histories.** A read at `s` sees the map that the first `s` operations build. -/
theorem visible_history (ops : List (Op K V)) (k : K) (s : Nat) (v : V) :
    Entry.Visible (history ops) k s v ↔ applyOps (ops.take s) k = some v := by
  have hlen : (ops.take s).length ≤ s := by
    rw [length_take]
    exact Nat.min_le_left _ _
  rw [← visible_history_all (ops.take s) k hlen]
  refine Entry.visible_congr ?_ v
  intro e _ hs
  nth_rewrite 1 [← List.take_append_drop s ops]
  rw [mem_history_append]
  constructor
  · intro h
    obtain h | h := h
    · exact h
    · have hseq := entriesFrom_sequence h
      rw [length_take, length_drop] at hseq
      omega
  · exact Or.inl

end History

end LevelDB
