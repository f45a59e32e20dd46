/-
  Two-level iterators as cursors (`table/two_level_iterator.cc`).
-/
import LevelDB.Table.BlockSafety
import LevelDB.Table.TwoLevelIterator

namespace LevelDB

open List Option Cursor SortedList

/-! ## Errors of blocks -/

namespace BlockIter

variable {it : BlockIter}

theorem status_parseNextKey (h : it.status ≠ none) : it.parseNextKey.2.status ≠ none := by
  unfold parseNextKey
  dsimp only
  split_ifs
  · exact h
  · split
    · exact some_ne_none _
    · split_ifs
      · exact some_ne_none _
      · exact h

theorem status_scan (h : it.status ≠ none) (goesOn : BlockIter → Bool) (turns : Nat) :
    (scan goesOn turns it).status ≠ none := by
  induction turns generalizing it with
  | zero => exact h
  | succ turns ih =>
    have hparse := status_parseNextKey h
    rw [scan]
    generalize it.parseNextKey = result at hparse ⊢
    obtain ⟨more, it'⟩ := result
    cases more with
    | false => exact hparse
    | true =>
      dsimp only
      split_ifs
      · exact ih hparse
      · exact hparse

theorem status_seek (h : it.status ≠ none) (cmp : Bytes → Bytes → Ordering) (target : Bytes) :
    (it.seek cmp target).status ≠ none := by
  unfold seek
  dsimp only
  split_ifs
  all_goals first
    | exact h
    | split
      · exact some_ne_none _
      · rw [scanFor_eq]
        split_ifs <;> exact status_scan (by exact h) _ _

theorem status_seekToLast (h : it.status ≠ none) : it.seekToLast.status ≠ none := by
  unfold seekToLast
  rw [scanTo_eq]
  exact status_scan (by exact h) _ _

theorem status_prev (h : it.status ≠ none) : it.prev.status ≠ none := by
  unfold prev
  split
  · exact h
  · rw [scanTo_eq]
    exact status_scan (by exact h) _ _

end BlockIter

theorem Iter.latched (cmp : Bytes → Bytes → Ordering) :
    (Iter.machine cmp).Latched fun it => it.status ≠ none := by
  have hmap : ∀ {f : BlockIter → BlockIter}, (∀ b, b.status ≠ none → (f b).status ≠ none) →
      ∀ {it : Iter}, it.status ≠ none → (it.map f).status ≠ none := by
    intro f hf it h
    cases it with
    | block b => exact hf b h
    | empty status => exact h
  exact {
    error := id
    seekToFirst := hmap fun _ h => BlockIter.status_parseNextKey (by exact h)
    seekToLast := hmap fun _ h => BlockIter.status_seekToLast h
    seek := fun t => hmap fun _ h => BlockIter.status_seek h cmp t
    next := hmap fun _ h => BlockIter.status_parseNextKey h
    prev := hmap fun _ h => BlockIter.status_prev h }

/-! ## Cursors over concatenations -/

namespace TwoLevelIterator

variable {I D F E H τ ε κ : Type*}

theorem ordered_of_adjacent [LinearOrder κ] {separator : F → κ} {key : E → κ}
    {parts : List (F × List E)}
    (hindex : (parts.map Prod.fst).Pairwise fun x y => separator x ≤ separator y)
    (hblocks : ∀ x ∈ parts, Strict key x.2)
    (hle : ∀ x ∈ parts, ∀ e ∈ x.2, key e ≤ separator x.1)
    (hlt : ∀ i x y, parts[i]? = some x → parts[i + 1]? = some y → ∀ e ∈ y.2,
      separator x.1 < key e) : Ordered separator key parts := by
  have hlater : parts.Pairwise fun x y => ∀ e ∈ y.2, separator x.1 < key e := by
    refine pairwise_iff_getElem.mpr ?_
    intro i j hi hj hij e he
    obtain ⟨n, rfl⟩ : ∃ n, j = n + 1 := ⟨j - 1, by omega⟩
    have hn : n < parts.length := by omega
    have hbefore := hlt n _ _ (getElem?_eq_getElem hn) (getElem?_eq_getElem hj) e he
    rcases Nat.eq_or_lt_of_le (Nat.lt_succ_iff.mp hij) with rfl | hin
    · exact hbefore
    · have hsep := pairwise_iff_getElem.mp (pairwise_map.mp hindex) i n hi hn hin
      exact hsep.trans_lt hbefore
  refine ⟨hindex, ?_, hle, hlater⟩
  refine pairwise_flatMap.mpr ⟨hblocks, ?_⟩
  refine List.Pairwise.imp_of_mem ?_ hlater
  intro x y hx hy hxy a ha b hb
  exact (hle x hx a ha).trans_lt (hxy b hb)

def listLevels (blocks : List (List Nat)) :
    Levels (List (Nat × Nat) × Cursor (Nat × Nat)) (List Nat × Cursor Nat) (Nat × Nat) Nat Nat Nat
      Status where
  index := .ofList Prod.fst id
  data := .ofList id id
  handle := Prod.snd
  blockFunction handle := (blocks[handle]?.getD [], .invalid)
  turns := blocks.length

def unreadable : Levels (List (Nat × Nat) × Cursor (Nat × Nat)) Iter (Nat × Nat) (Bytes × Bytes) Nat
    Bytes Status where
  index := .ofList Prod.fst List.length
  data := Iter.machine fun x y => compare x.length y.length
  handle := Prod.snd
  blockFunction _ := .empty (some (.corruptionErr "bad block contents"))
  turns := 1

end TwoLevelIterator

end LevelDB
