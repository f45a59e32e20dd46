/-
  What the logs hold after a crash.

  `Covered logs log base H`: the logs from number `log` on hold, in order, exactly the
  operations of `H` after the first `base`. `Covers logs hist pend P` says it for all pairs of `P`,
  since a crash may also lose the latest log number, and for everything a crash may leave of the
  logs: `H` is then the acknowledged history, with or without the group in flight.
-/
import LevelDB.Db.Recovery

namespace LevelDB

open List Option

variable {K V : Type}

/-! ## Records by number -/

section Records

variable {logs logs' : LogDir K V} {log L M n : Nat}

theorem recordsOf_eq_nil (h : n ∉ logs.keys) : recordsOf logs n = [] := by
  unfold recordsOf
  rw [AList.lookup_eq_none.mpr (by rwa [AList.mem_keys])]
  rfl

theorem recordsOf_insert_self (logs : LogDir K V) (n : Nat) (f : LogFile (WriteBatch K V)) :
    recordsOf (logs.insert n f) n = f.records := by
  unfold recordsOf
  rw [AList.lookup_insert]
  rfl

theorem recordsOf_insert_of_ne {f : LogFile (WriteBatch K V)} (h : n ≠ L) :
    recordsOf (logs.insert L f) n = recordsOf logs n := by
  unfold recordsOf
  rw [AList.lookup_insert_ne h]

theorem liveRecords_eq (hM : ∀ n ∈ logs.keys, n < M) (log : Nat) :
    liveRecords logs log = (List.range' log (M - log)).flatMap (recordsOf logs) := by
  have hlive : liveLogs logs log 0 =
      (List.range' log (M - log)).filter fun n => decide (n ∈ logs.keys) := by
    refine liveLogs_eq (List.Pairwise.filter _ pairwise_lt_range') ?_
    intro n
    rw [mem_filter, mem_range'_1, decide_eq_true_eq]
    constructor
    · intro ⟨hn, hk⟩
      exact ⟨hk, hn.1⟩
    · intro ⟨hk, hn⟩
      have := hM n hk
      exact ⟨⟨hn, by omega⟩, hk⟩
  unfold liveRecords
  rw [hlive]
  generalize List.range' log (M - log) = l
  induction l with
  | nil => rfl
  | cons n l ih =>
    by_cases hn : n ∈ logs.keys
    · rw [filter_cons_of_pos (by simpa using hn), flatMap_cons, flatMap_cons, ih]
    · rw [filter_cons_of_neg (by simpa using hn), flatMap_cons, recordsOf_eq_nil hn, ih,
        nil_append]

section

variable (hL : ∀ n ∈ logs.keys, n ≤ L) (hlog : log ≤ L)
include hL hlog

theorem liveRecords_last :
    liveRecords logs log =
      (List.range' log (L - log)).flatMap (recordsOf logs) ++ recordsOf logs L := by
  rw [liveRecords_eq (M := L + 1) (fun n hn => Nat.lt_succ_of_le (hL n hn)),
    show L + 1 - log = (L - log) + 1 by omega, range'_1_concat, flatMap_append,
    flatMap_singleton, show log + (L - log) = L by omega]

theorem liveRecords_insert (f : LogFile (WriteBatch K V)) :
    liveRecords (logs.insert L f) log =
      (List.range' log (L - log)).flatMap (recordsOf logs) ++ f.records := by
  have hkeys : ∀ n ∈ (logs.insert L f).keys, n ≤ L := by
    intro n hn
    rw [← AList.mem_keys, AList.mem_insert, AList.mem_keys] at hn
    obtain rfl | hn := hn
    · exact le_refl _
    · exact hL n hn
  rw [liveRecords_last hkeys hlog, recordsOf_insert_self]
  congr 1
  refine flatMap_congr fun n hn => recordsOf_insert_of_ne ?_
  rw [mem_range'_1] at hn
  omega

theorem liveRecords_erase :
    liveRecords (logs.erase L) log =
      (List.range' log (L - log)).flatMap (recordsOf logs) := by
  have hkeys : ∀ n ∈ (logs.erase L).keys, n ≤ L := by
    intro n hn
    rw [← AList.mem_keys, AList.mem_erase] at hn
    exact hL n hn.2
  have hnil : recordsOf (logs.erase L) L = [] := by
    unfold recordsOf
    rw [AList.lookup_erase]
    rfl
  rw [liveRecords_last hkeys hlog, hnil, append_nil]
  refine flatMap_congr fun n hn => ?_
  rw [mem_range'_1] at hn
  unfold recordsOf
  rw [AList.lookup_erase_ne (by omega)]

end

end Records

/-! ## Cuts of the logs -/

namespace LogDir.Cut

variable {logs logs' : LogDir K V} {n M : Nat}

theorem refl (logs : LogDir K V) : logs.Cut logs := fun _ => optionRel_cut_refl _

section

variable (h : logs.Cut logs')
include h

theorem mem_keys : n ∈ logs'.keys ↔ n ∈ logs.keys := by
  rw [← AList.mem_keys, ← AList.mem_keys, ← AList.lookup_isSome, ← AList.lookup_isSome]
  have hn := h n
  cases hl : logs.lookup n with
  | none =>
    rw [hl] at hn
    cases hl' : logs'.lookup n with
    | none => rfl
    | some f =>
      rw [hl'] at hn
      cases hn
  | some f =>
    rw [hl] at hn
    cases hl' : logs'.lookup n with
    | none =>
      rw [hl'] at hn
      cases hn
    | some f' => simp

theorem recordsOf_subset (n : Nat) :
    recordsOf logs' n ⊆ recordsOf logs n := by
  unfold recordsOf
  have hn := h n
  cases hl' : logs'.lookup n with
  | none => exact nil_subset _
  | some f' =>
    rw [hl'] at hn
    cases hl : logs.lookup n with
    | none =>
      rw [hl] at hn
      cases hn
    | some f =>
      rw [hl] at hn
      cases hn with
      | some hcut =>
        obtain ⟨-, k, -, hr⟩ := hcut
        rw [elim_some, elim_some, hr]
        exact take_subset _ _

theorem liveRecords_subset (log : Nat) :
    liveRecords logs' log ⊆ liveRecords logs log := by
  intro b hb
  obtain ⟨n, hn, hbn⟩ := mem_flatMap.mp hb
  rw [mem_liveLogs, h.mem_keys, ← mem_liveLogs] at hn
  exact mem_flatMap.mpr ⟨n, hn, h.recordsOf_subset n hbn⟩

theorem lookup_some {f : LogFile (WriteBatch K V)}
    (hf : logs.lookup n = some f) : ∃ f', logs'.lookup n = some f' ∧ f.Cut f' := by
  have hn := h n
  rw [hf] at hn
  cases hl' : logs'.lookup n with
  | none =>
    rw [hl'] at hn
    cases hn
  | some f' =>
    rw [hl'] at hn
    cases hn with
    | some hcut => exact ⟨f', rfl, hcut⟩

end

theorem keys_le {L : Nat} {g : LogFile (WriteBatch K V)} (h : LogDir.Cut (logs.insert L g) logs')
    (hL : ∀ n ∈ logs.keys, n ≤ L) : ∀ n ∈ logs'.keys, n ≤ L := by
  intro n hn
  rw [h.mem_keys, ← AList.mem_keys, AList.mem_insert, AList.mem_keys] at hn
  obtain rfl | hn := hn
  · exact le_refl _
  · exact hL n hn

theorem insert {L : Nat} {f f' g : LogFile (WriteBatch K V)} (h : LogDir.Cut (logs.insert L g) logs')
    (hl : logs.lookup L = some f) (hf : f.Cut f') : LogDir.Cut logs (logs'.insert L f') := by
  intro n
  by_cases hn : n = L
  · subst hn
    rw [hl, AList.lookup_insert]
    exact .some hf
  · have := h n
    rw [AList.lookup_insert_ne hn] at this ⊢
    exact this

end LogDir.Cut

/-! ## Coverage -/

/-- The logs from `log` on hold the operations of `H` after the first `base`. -/
structure Covered (logs : LogDir K V) (log base : Nat) (H : List (Op K V)) : Prop where
  base_le : base ≤ H.length
  numbered : Numbered (base + 1) (liveRecords logs log)
  ops : H.drop base = (liveRecords logs log).flatMap WriteBatch.ops

/-- Whatever a crash leaves of the logs covers one history for all pairs of `P`. -/
def Covers (logs : LogDir K V) (hist pend : List (Op K V)) (P : Set (Nat × Nat)) : Prop :=
  ∀ logs', logs.Cut logs' → ∃ H, (H = hist ∨ H = hist ++ pend) ∧
    ∀ p ∈ P, Covered logs' p.1 p.2 H

theorem take_of_outcome {hist pend H : List (Op K V)} (h : H = hist ∨ H = hist ++ pend) :
    H = (hist ++ pend).take H.length := by
  obtain rfl | rfl := h
  · exact take_left.symm
  · exact (take_length).symm

namespace Covered

variable {logs logs' : LogDir K V} {log base : Nat} {H : List (Op K V)}

section

variable (h : Covered logs log base H)
include h

theorem congr (heq : liveRecords logs' log = liveRecords logs log) :
    Covered logs' log base H :=
  ⟨h.base_le, by rw [heq]; exact h.numbered, by rw [heq]; exact h.ops⟩

theorem length :
    base + ((liveRecords logs log).flatMap WriteBatch.ops).length = H.length := by
  have hle := h.base_le
  rw [← h.ops, length_drop]
  omega

theorem append {b : WriteBatch K V} (hb : b.sequence = H.length + 1)
    (heq : liveRecords logs' log = liveRecords logs log ++ [b]) :
    Covered logs' log base (H ++ b.ops) := by
  refine ⟨h.base_le.trans (by simp), ?_, ?_⟩
  · rw [heq, numbered_append]
    have hlen := h.length
    exact ⟨h.numbered, by omega, trivial⟩
  · rw [heq, drop_append_of_le_length h.base_le, h.ops, flatMap_append,
      flatMap_singleton]

theorem ops_eq_nil {b : WriteBatch K V}
    {records : List (WriteBatch K V)} (hb : b.sequence = H.length + 1)
    (heq : liveRecords logs log = records ++ [b]) : b.ops = [] := by
  have hnum := h.numbered
  have hlen := h.length
  rw [heq, numbered_append] at hnum
  rw [heq, flatMap_append, length_append, flatMap_singleton] at hlen
  have hseq := hnum.2.1
  apply length_eq_zero_iff.mp
  omega

end

theorem last_empty (hM : ∀ n ∈ logs.keys, n ≤ log) (hnil : recordsOf logs log = [])
    (H : List (Op K V)) : Covered logs log H.length H := by
  have hlive : liveRecords logs log = [] := by
    rw [liveRecords_last hM (le_refl _), hnil]
    simp
  refine ⟨le_refl _, ?_, ?_⟩
  · rw [hlive]
    trivial
  · rw [hlive, drop_length]
    rfl

end Covered

namespace Covers

variable {logs : LogDir K V} {hist pend : List (Op K V)} {P Q : Set (Nat × Nat)} {L : Nat}
  {f : LogFile (WriteBatch K V)} {b : WriteBatch K V}

theorem mono (h : Covers logs hist pend P) (hQ : Q ⊆ P) : Covers logs hist pend Q := by
  intro logs' hcut
  obtain ⟨H, hH, hP⟩ := h logs' hcut
  exact ⟨H, hH, fun p hp => hP p (hQ hp)⟩

theorem cut {logs' : LogDir K V} (h : Covers logs hist pend P) (hcut : logs.Cut logs') :
    Covers logs' hist pend P :=
  fun logs'' hcut' => h logs'' fun n => optionRel_cut_trans (hcut n) (hcut' n)

theorem append (h : Covers logs hist [] P) (hL : ∀ n ∈ logs.keys, n ≤ L)
    (hP : ∀ p ∈ P, p.1 ≤ L) (hf : logs.lookup L = some f) (hb : b.sequence = hist.length + 1) :
    Covers (logs.insert L (f.append b)) hist b.ops P := by
  intro logs' hcut
  have hkeys := hcut.keys_le hL
  obtain ⟨f', hf', hd, n, hn, hr⟩ := hcut.lookup_some (AList.lookup_insert _)
  have hlast : recordsOf logs' L = (f.records ++ [b]).take n := by
    unfold recordsOf
    rw [hf']
    exact hr
  -- the same logs without the new record are what a crash may leave of the old logs
  let f0 : LogFile (WriteBatch K V) := ⟨f.records.take n, f.durable, by
    rw [length_take]
    exact le_min hn f.durable_le⟩
  obtain ⟨H, hH, hcov⟩ := h (logs'.insert L f0) (hcut.insert hf ⟨rfl, n, hn, rfl⟩)
  obtain rfl : H = hist := by simpa using hH
  obtain hle | hgt := le_or_gt n f.records.length
  · refine ⟨H, Or.inl rfl, fun p hp => (hcov p hp).congr ?_⟩
    rw [liveRecords_last hkeys (hP p hp), liveRecords_insert hkeys (hP p hp), hlast,
      take_append_of_le_length hle]
  · refine ⟨H ++ b.ops, Or.inr rfl, fun p hp => (hcov p hp).append hb ?_⟩
    rw [liveRecords_last hkeys (hP p hp), liveRecords_insert hkeys (hP p hp), hlast,
      take_of_length_le (by simpa using Nat.succ_le_of_lt hgt)]
    simp only [f0, take_of_length_le hgt.le, append_assoc]

theorem sync (h : Covers logs hist b.ops P) (hL : ∀ n ∈ logs.keys, n ≤ L)
    (hP : ∀ p ∈ P, p.1 ≤ L) (hf : logs.lookup L = some f) {records : List (WriteBatch K V)}
    (hr : f.records = records ++ [b]) (hb : b.sequence = hist.length + 1) :
    Covers (logs.insert L f.sync) (hist ++ b.ops) [] P := by
  intro logs' hcut
  have hkeys := hcut.keys_le hL
  obtain ⟨f', hf', hfcut⟩ := hcut.lookup_some (AList.lookup_insert _)
  have hlast : recordsOf logs' L = f.records := by
    unfold recordsOf
    rw [hf']
    exact hfcut.records_eq f.sync_synced
  obtain ⟨H, hH, hcov⟩ := h (logs'.insert L f) (hcut.insert hf (.refl f))
  have hlive : ∀ p ∈ P, liveRecords logs' p.1 = liveRecords (logs'.insert L f) p.1 := by
    intro p hp
    rw [liveRecords_last hkeys (hP p hp), liveRecords_insert hkeys (hP p hp), hlast]
  refine ⟨hist ++ b.ops, Or.inl rfl, fun p hp => ?_⟩
  obtain rfl | rfl := hH
  · have hnil : b.ops = [] := (hcov p hp).ops_eq_nil hb
      (by rw [liveRecords_insert hkeys (hP p hp), hr, ← append_assoc])
    rw [hnil, append_nil]
    exact (hcov p hp).congr (hlive p hp)
  · exact (hcov p hp).congr (hlive p hp)

theorem recordsOf_new {logs' : LogDir K V} (hcut : LogDir.Cut (logs.insert L .empty) logs') :
    recordsOf logs' L = [] := by
  obtain ⟨f', hf', -, n, -, hr⟩ := hcut.lookup_some (AList.lookup_insert _)
  unfold recordsOf
  rw [hf', elim_some, hr]
  exact take_nil

theorem create (h : Covers logs hist pend P) (hL : ∀ n ∈ logs.keys, n < L)
    (hP : ∀ p ∈ P, p.1 ≤ L) : Covers (logs.insert L .empty) hist pend P := by
  intro logs' hcut
  have hkeys := hcut.keys_le fun n hn => (hL n hn).le
  have hlast := recordsOf_new hcut
  have hold : logs.Cut (logs'.erase L) := by
    intro k
    by_cases hk : k = L
    · subst hk
      rw [AList.lookup_erase, AList.lookup_eq_none.mpr]
      · exact .none
      · intro hmem
        exact lt_irrefl _ (hL k hmem)
    · have := hcut k
      rw [AList.lookup_insert_ne hk] at this
      rw [AList.lookup_erase_ne hk]
      exact this
  obtain ⟨H, hH, hcov⟩ := h _ hold
  refine ⟨H, hH, fun p hp => (hcov p hp).congr ?_⟩
  rw [liveRecords_last hkeys (hP p hp), hlast, append_nil, liveRecords_erase hkeys (hP p hp)]

theorem create_self (h : Covers logs hist [] P) (hL : ∀ n ∈ logs.keys, n < L)
    (hP : ∀ p ∈ P, p.1 ≤ L) : Covers (logs.insert L .empty) hist [] (insert (L, hist.length) P) := by
  intro logs' hcut
  have hkeys := hcut.keys_le fun n hn => (hL n hn).le
  obtain ⟨H, hH, hcov⟩ := h.create hL hP logs' hcut
  obtain rfl : H = hist := by simpa using hH
  refine ⟨H, Or.inl rfl, fun p hp => ?_⟩
  obtain rfl | hp := Set.mem_insert_iff.mp hp
  · exact Covered.last_empty hkeys (recordsOf_new hcut) _
  · exact hcov p hp

theorem settle {log base : Nat} {H : List (Op K V)} (h : Covers logs hist pend P)
    (hp : (log, base) ∈ P) (hH : H = hist ∨ H = hist ++ pend) (hcov : Covered logs log base H)
    (hlen : H.length = base) : Covers logs H [] P := by
  intro logs' hcut
  obtain ⟨H', hH', hcov'⟩ := h logs' hcut
  have hnil : (liveRecords logs log).flatMap WriteBatch.ops = [] := by
    have := hcov.length
    exact length_eq_zero_iff.mp (by omega)
  have hnil' : (liveRecords logs' log).flatMap WriteBatch.ops = [] := by
    rw [flatMap_eq_nil_iff] at hnil ⊢
    exact fun b hb => hnil b (hcut.liveRecords_subset log hb)
  have hlen' := (hcov' _ hp).length
  rw [hnil', length_nil, Nat.add_zero] at hlen'
  have heq : H' = H := by
    rw [take_of_outcome hH', take_of_outcome hH]
    congr 1
    omega
  refine ⟨H, Or.inl rfl, ?_⟩
  rw [← heq]
  exact hcov'

theorem of_keys_lt {H : List (Op K V)} (hL : ∀ n ∈ logs.keys, n < L)
    (hH : H = hist ∨ H = hist ++ pend) : Covers logs hist pend {(L, H.length)} := by
  intro logs' hcut
  have hkeys : ∀ n ∈ logs'.keys, n < L := fun n hn => hL n (hcut.mem_keys.mp hn)
  refine ⟨H, hH, fun p hp => ?_⟩
  rw [Set.mem_singleton_iff.mp hp]
  refine Covered.last_empty (fun n hn => (hkeys n hn).le) ?_ H
  unfold recordsOf
  rw [AList.lookup_eq_none.mpr fun hmem => lt_irrefl _ (hkeys L hmem)]
  rfl

end Covers

end LevelDB
