/-
  Two-level iterators (`table/two_level_iterator.cc`).

  The index iterator is on the entry of a block, the data iterator on an entry of that block. The
  same code serves tables, whose blocks are blocks of a file, and levels, whose blocks are tables;
  `Levels` is what it is given. The loops over blocks without entries are bounded by `turns`.
-/
import LevelDB.Lib.Cursor

namespace LevelDB

open List Option Cursor SortedList

/-- What a two-level iterator is made of: the index iterator, the iterators of the blocks, and the
    block function. -/
structure Levels (I D F E H τ ε : Type*) where
  index : Machine I F τ ε
  data : Machine D E τ ε
  handle : F → H
  blockFunction : H → D
  turns : Nat

/-- `class TwoLevelIterator`. -/
structure TwoLevelIterator (I D H ε : Type*) where
  index : I
  data : Option D
  dataBlockHandle : H
  status : Option ε

namespace TwoLevelIterator

variable {I D F E H τ ε κ : Type*}

/-- `TwoLevelIterator::TwoLevelIterator`. -/
def new [Inhabited H] (index : I) : TwoLevelIterator I D H ε := ⟨index, none, default, none⟩

section Calls

variable [DecidableEq H] (l : Levels I D F E H τ ε)

def current (it : TwoLevelIterator I D H ε) : Option E := it.data.bind l.data.current

/-- `status`. -/
def error (it : TwoLevelIterator I D H ε) : Option ε :=
  it.status.or ((l.index.error it.index).or (it.data.bind l.data.error))

/-- `SetDataIterator`. The error of the iterator that is dropped is saved. -/
def setDataIterator (data : Option D) (it : TwoLevelIterator I D H ε) : TwoLevelIterator I D H ε :=
  { it with data := data, status := it.status.or (it.data.bind l.data.error) }

def initDataBlock (it : TwoLevelIterator I D H ε) : TwoLevelIterator I D H ε :=
  match l.index.current it.index with
  | none => it.setDataIterator l none
  | some x =>
    let handle := l.handle x
    if it.data.isSome ∧ handle = it.dataBlockHandle then it
    else { it.setDataIterator l (some (l.blockFunction handle)) with dataBlockHandle := handle }

def onIndex (f : I → I) (it : TwoLevelIterator I D H ε) : TwoLevelIterator I D H ε :=
  initDataBlock l { it with index := f it.index }

def onData (f : D → D) (it : TwoLevelIterator I D H ε) : TwoLevelIterator I D H ε :=
  { it with data := it.data.map f }

def skipEmptyDataBlocksForward : Nat → TwoLevelIterator I D H ε → TwoLevelIterator I D H ε
  | 0, it => it
  | turns + 1, it =>
    if (it.current l).isSome then it
    else if (l.index.current it.index).isNone then it.setDataIterator l none
    else
      skipEmptyDataBlocksForward turns
        ((it.onIndex l l.index.next).onData l.data.seekToFirst)

def skipEmptyDataBlocksBackward : Nat → TwoLevelIterator I D H ε → TwoLevelIterator I D H ε
  | 0, it => it
  | turns + 1, it =>
    if (it.current l).isSome then it
    else if (l.index.current it.index).isNone then it.setDataIterator l none
    else
      skipEmptyDataBlocksBackward turns
        ((it.onIndex l l.index.prev).onData l.data.seekToLast)

def machine : Machine (TwoLevelIterator I D H ε) E τ ε where
  current := current l
  error := error l
  seekToFirst it := skipEmptyDataBlocksForward l l.turns
    ((it.onIndex l l.index.seekToFirst).onData l.data.seekToFirst)
  seekToLast it := skipEmptyDataBlocksBackward l l.turns
    ((it.onIndex l l.index.seekToLast).onData l.data.seekToLast)
  seek t it := skipEmptyDataBlocksForward l l.turns
    ((it.onIndex l (l.index.seek t)).onData (l.data.seek t))
  next it := skipEmptyDataBlocksForward l l.turns (it.onData l.data.next)
  prev it := skipEmptyDataBlocksBackward l l.turns (it.onData l.data.prev)

end Calls

/-! ## Blocks with their index entries -/

section Blocks

variable {parts : List (F × List E)} {i j : Nat} {x : F × List E}

/-- How many entries there are before block `i`. -/
def base (parts : List (F × List E)) (i : Nat) : Nat := ((parts.take i).flatMap Prod.snd).length

theorem base_zero (parts : List (F × List E)) : base parts 0 = 0 := rfl

theorem base_length (parts : List (F × List E)) :
    base parts parts.length = (parts.flatMap Prod.snd).length := by
  unfold base
  rw [take_length]

section

variable (h : parts[i]? = some x)
include h

theorem base_succ : base parts (i + 1) = base parts i + x.2.length := by
  unfold base
  rw [take_add_one, h, toList_some, flatMap_append, length_append,
    flatMap_singleton]

theorem split_at :
    parts = parts.take i ++ x :: parts.drop (i + 1) := by
  obtain ⟨hi, rfl⟩ := List.getElem?_eq_some_iff.mp h
  rw [← drop_eq_getElem_cons hi, List.take_append_drop]

theorem flatMap_split :
    parts.flatMap Prod.snd = (parts.take i).flatMap Prod.snd ++
      (x.2 ++ (parts.drop (i + 1)).flatMap Prod.snd) := by
  conv_lhs => rw [split_at h, flatMap_append, flatMap_cons]

theorem getElem?_flatMap (hj : j < x.2.length) :
    (parts.flatMap Prod.snd)[base parts i + j]? = x.2[j]? := by
  unfold base
  rw [flatMap_split h, getElem?_append_right (Nat.le_add_right _ _), Nat.add_sub_cancel_left,
    getElem?_append_left hj]

end

/-- The order of blocks and index entries: a separator is at or after its block and before the
    blocks that follow. -/
structure Ordered [LinearOrder κ] (separator : F → κ) (key : E → κ) (parts : List (F × List E)) :
    Prop where
  index : (parts.map Prod.fst).Pairwise fun x y => separator x ≤ separator y
  data : Strict key (parts.flatMap Prod.snd)
  le_separator : ∀ x ∈ parts, ∀ e ∈ x.2, key e ≤ separator x.1
  separator_lt : parts.Pairwise fun x y => ∀ e ∈ y.2, separator x.1 < key e

section

variable [LinearOrder κ] {separator : F → κ} {key : E → κ} {t : κ} (h : Ordered separator key parts)
  (hi : Machine.CutAt separator (parts.map Prod.fst) t i)
include h hi

theorem Ordered.cutAt (hx : parts[i]? = some x) (hj : Machine.CutAt key x.2 t j) :
    Machine.CutAt key (parts.flatMap Prod.snd) t (base parts i + j) := by
  have hfirst : ∀ {n : Nat} {y : F × List E}, parts[n]? = some y →
      (parts.map Prod.fst)[n]? = some y.1 := by
    intro n y hy
    rw [getElem?_map, hy]
    rfl
  have hsplit : parts.flatMap Prod.snd = ((parts.take i).flatMap Prod.snd ++ x.2.take j) ++
      (x.2.drop j ++ (parts.drop (i + 1)).flatMap Prod.snd) := by
    conv_lhs => rw [flatMap_split hx, ← List.take_append_drop j x.2]
    simp only [append_assoc]
  have hlen : base parts i + j = ((parts.take i).flatMap Prod.snd ++ x.2.take j).length := by
    rw [length_append, length_take, min_eq_left hj.le]
    rfl
  rw [hsplit, hlen]
  refine Machine.cutAt_append ?_ ?_
  · intro e he
    obtain he | he := mem_append.mp he
    · obtain ⟨y, hy, hey⟩ := mem_flatMap.mp he
      obtain ⟨n, hn, rfl⟩ := getElem_of_mem hy
      rw [length_take] at hn
      rw [getElem_take] at hey
      have hget : parts[n]? = some parts[n] := getElem?_eq_getElem (by omega)
      exact (h.le_separator _ (mem_of_getElem? hget) e hey).trans_lt
        (hi.lt n _ (hfirst hget) (by omega))
    · exact hj.lt_of_mem_take e he
  · intro e he
    obtain he | he := mem_append.mp he
    · exact hj.le_of_mem_drop e he
    · obtain ⟨y, hy, hey⟩ := mem_flatMap.mp he
      have hpair := h.separator_lt
      rw [split_at hx, pairwise_append, pairwise_cons] at hpair
      exact (hi.ge i _ (hfirst hx) (le_refl _)).trans (hpair.2.1.1 y hy e hey).le

theorem Ordered.cutAt_end (hend : parts.length ≤ i) :
    Machine.CutAt key (parts.flatMap Prod.snd) t (parts.flatMap Prod.snd).length := by
  have hlt : ∀ e ∈ parts.flatMap Prod.snd, key e < t := by
    intro e he
    obtain ⟨y, hy, hey⟩ := mem_flatMap.mp he
    obtain ⟨n, hn, rfl⟩ := getElem_of_mem hy
    have hget : (parts.map Prod.fst)[n]? = some parts[n].1 := by
      rw [getElem?_map, getElem?_eq_getElem hn]
      rfl
    exact (h.le_separator _ hy e hey).trans_lt (hi.lt n _ hget (by omega))
  have hcut := Machine.cutAt_append hlt (fun e he => absurd he not_mem_nil)
  rwa [append_nil] at hcut

end

end Blocks

/-! ## The iterator -/

/-- The index iterator is faithful to the index entries, the iterator of every block to its
    entries. Only `Seek` needs an order. -/
structure Serves [LinearOrder κ] (l : Levels I D F E H τ ε) (separator : F → κ) (key : E → κ)
    (rank : τ → κ) (wellFormed : τ → Prop) (parts : List (F × List E)) (RI : I → Nat → Prop)
    (RD : Nat → D → Nat → Prop) : Prop where
  index : l.index.Faithful separator rank wellFormed (parts.map Prod.fst) RI
  data : ∀ {i x}, parts[i]? = some x → l.data.Faithful key rank wellFormed x.2 (RD i)
  opens : ∀ {i x}, parts[i]? = some x → RD i (l.blockFunction (l.handle x.1)) x.2.length
  handles : (parts.map fun x => l.handle x.1).Nodup
  turns : parts.length ≤ l.turns
  ordered : ∀ t, wellFormed t → Ordered separator key parts

section Faithful

variable [LinearOrder κ] {l : Levels I D F E H τ ε} {separator : F → κ} {key : E → κ}
  {rank : τ → κ} {wellFormed : τ → Prop} {parts : List (F × List E)} {RI : I → Nat → Prop}
  {RD : Nat → D → Nat → Prop} {it : TwoLevelIterator I D H ε} {i j : Nat}

/-- The data iterator is on entry `j` of block `i`. -/
structure Holds (l : Levels I D F E H τ ε) (parts : List (F × List E)) (RD : Nat → D → Nat → Prop)
    (it : TwoLevelIterator I D H ε) (i j : Nat) (x : F × List E) (d : D) : Prop where
  block : parts[i]? = some x
  data : it.data = some d
  handle : it.dataBlockHandle = l.handle x.1
  at_entry : RD i d j
  le : j ≤ x.2.length

/-- There is no error, and the data iterator is one of some block. -/
structure Quiet (l : Levels I D F E H τ ε) (parts : List (F × List E)) (RD : Nat → D → Nat → Prop)
    (it : TwoLevelIterator I D H ε) : Prop where
  status : it.status = none
  data : it.data = none ∨ ∃ i j x d, Holds l parts RD it i j x d

/-- Both iterators are on block `i`. -/
def OnBlock (l : Levels I D F E H τ ε) (parts : List (F × List E)) (RI : I → Nat → Prop)
    (RD : Nat → D → Nat → Prop) (it : TwoLevelIterator I D H ε) (i j : Nat) : Prop :=
  it.status = none ∧ RI it.index i ∧ ∃ x d, Holds l parts RD it i j x d

structure OffEnd (parts : List (F × List E)) (RI : I → Nat → Prop) (it : TwoLevelIterator I D H ε) :
    Prop where
  status : it.status = none
  data : it.data = none
  index : ∃ i, RI it.index i ∧ parts.length ≤ i

/-- The iterator is on entry `p` of all entries, or at the end if there is none. -/
def Tracks (l : Levels I D F E H τ ε) (parts : List (F × List E)) (RI : I → Nat → Prop)
    (RD : Nat → D → Nat → Prop) (it : TwoLevelIterator I D H ε) (p : Nat) : Prop :=
  (∃ i j x, OnBlock l parts RI RD it i j ∧ parts[i]? = some x ∧ j < x.2.length ∧
      p = base parts i + j) ∨
    (OffEnd parts RI it ∧ (parts.flatMap Prod.snd).length ≤ p)

theorem OnBlock.quiet (h : OnBlock l parts RI RD it i j) : Quiet l parts RD it := by
  obtain ⟨hstatus, -, x, d, hd⟩ := h
  exact ⟨hstatus, .inr ⟨i, j, x, d, hd⟩⟩

theorem OffEnd.quiet (h : OffEnd parts RI it) : Quiet l parts RD it := ⟨h.status, .inl h.data⟩

theorem Tracks.quiet {p : Nat} (h : Tracks l parts RI RD it p) : Quiet l parts RD it := by
  obtain ⟨i, j, x, h, -⟩ | ⟨h, -⟩ := h
  · exact h.quiet
  · exact h.quiet

theorem Tracks.index {p : Nat} (h : Tracks l parts RI RD it p) : ∃ i, RI it.index i := by
  obtain ⟨i, j, x, ⟨-, h, -⟩, -⟩ | ⟨⟨-, -, i, h, -⟩, -⟩ := h
  · exact ⟨i, h⟩
  · exact ⟨i, h⟩

theorem Quiet.withIndex (h : Quiet l parts RD it) (index : I) :
    Quiet l parts RD { it with index := index } := by
  refine ⟨h.status, h.data.imp id ?_⟩
  rintro ⟨i, j, x, d, hd⟩
  exact ⟨i, j, x, d, hd.block, hd.data, hd.handle, hd.at_entry, hd.le⟩

section Served

variable (hs : Serves l separator key rank wellFormed parts RI RD)
include hs

theorem Holds.data_error {x : F × List E} {d : D} (h : Holds l parts RD it i j x d) :
    it.data.bind l.data.error = none := by
  rw [h.data]
  exact (hs.data h.block).error h.at_entry

theorem Quiet.data_error (h : Quiet l parts RD it) : it.data.bind l.data.error = none := by
  obtain hnone | ⟨i, j, x, d, hd⟩ := h.data
  · rw [hnone]
    rfl
  · exact hd.data_error hs

theorem Quiet.status_set (h : Quiet l parts RD it) (data : Option D) :
    (it.setDataIterator l data).status = none := by
  show it.status.or (it.data.bind l.data.error) = none
  rw [h.status, h.data_error hs]
  rfl

theorem index_current (h : RI it.index i) : l.index.current it.index = (parts[i]?).map Prod.fst := by
  rw [hs.index.current h, getElem?_map]

theorem eq_of_handle {i' : Nat} {x x' : F × List E} (hx : parts[i]? = some x)
    (hx' : parts[i']? = some x') (h : l.handle x.1 = l.handle x'.1) : i = i' := by
  have hi : i < (parts.map fun x => l.handle x.1).length := by
    rw [length_map]
    exact (List.getElem?_eq_some_iff.mp hx).1
  refine (getElem?_inj hi hs.handles).mp ?_
  rw [getElem?_map, getElem?_map, hx, hx', map_some, map_some, h]

omit hs in
theorem OnBlock.onData {j' : Nat} {f : D → D} (h : OnBlock l parts RI RD it i j)
    {x : F × List E} (hx : parts[i]? = some x) (hf : ∀ {d}, RD i d j → RD i (f d) j')
    (hle : j' ≤ x.2.length) : OnBlock l parts RI RD (it.onData f) i j' := by
  obtain ⟨hstatus, hi, y, d, hd⟩ := h
  obtain rfl := Option.some.inj (hx.symm.trans hd.block)
  refine ⟨hstatus, hi, x, f d, hx, ?_, hd.handle, hf hd.at_entry, hle⟩
  show it.data.map f = some (f d)
  rw [hd.data]
  rfl

omit hs in
theorem OffEnd.onData (h : OffEnd parts RI it) (f : D → D) : OffEnd parts RI (it.onData f) := by
  refine ⟨h.status, ?_, h.index⟩
  show it.data.map f = none
  rw [h.data]
  rfl

omit hs in
theorem OffEnd.current_none (h : OffEnd parts RI it) : it.current l = none := by
  unfold current
  rw [h.data]
  rfl

theorem OnBlock.current_eq (h : OnBlock l parts RI RD it i j) {x : F × List E}
    (hx : parts[i]? = some x) : it.current l = x.2[j]? := by
  obtain ⟨-, -, x', d, hd⟩ := h
  obtain rfl := Option.some.inj (hx.symm.trans hd.block)
  unfold current
  rw [hd.data]
  exact (hs.data hx).current hd.at_entry

variable [DecidableEq H]

section

variable (h : Quiet l parts RD it)
include h

theorem initDataBlock_on (hi : RI it.index i) {x : F × List E}
    (hx : parts[i]? = some x) : ∃ j, OnBlock l parts RI RD (it.initDataBlock l) i j := by
  unfold initDataBlock
  rw [index_current hs hi, hx]
  dsimp only [map_some]
  split_ifs with hsame
  · -- the iterator of this block is kept
    obtain ⟨hsome, hhandle⟩ := hsame
    obtain hnone | ⟨i', j, x', d, hd⟩ := h.data
    · rw [hnone] at hsome
      cases hsome
    · obtain rfl := eq_of_handle hs hx hd.block (hhandle.trans hd.handle)
      exact ⟨j, h.status, hi, x', d, hd⟩
  · exact ⟨x.2.length, h.status_set hs (some (l.blockFunction (l.handle x.1))), hi, x, _, hx, rfl, rfl,
      hs.opens hx, le_refl _⟩

theorem initDataBlock_off (hi : RI it.index i) (hend : parts.length ≤ i) :
    OffEnd parts RI (it.initDataBlock l) := by
  unfold initDataBlock
  rw [index_current hs hi, getElem?_eq_none hend]
  exact ⟨h.status_set hs none, rfl, i, hi, hend⟩

theorem onIndex_on {f : I → I} (hi : RI (f it.index) i) {x : F × List E}
    (hx : parts[i]? = some x) : ∃ j, OnBlock l parts RI RD (it.onIndex l f) i j :=
  initDataBlock_on hs (h.withIndex _) hi hx

theorem onIndex_off {f : I → I} (hi : RI (f it.index) i)
    (hend : parts.length ≤ i) : OffEnd parts RI (it.onIndex l f) :=
  initDataBlock_off hs (h.withIndex _) hi hend

end

/-! ### Skipping blocks -/

theorem skipForward_off (h : OffEnd parts RI it) (turns : Nat) :
    OffEnd parts RI (skipEmptyDataBlocksForward l turns it) := by
  cases turns with
  | zero => exact h
  | succ turns =>
    obtain ⟨i, hi, hend⟩ := h.index
    have hquiet : Quiet l parts RD it := h.quiet
    rw [skipEmptyDataBlocksForward, h.current_none, index_current hs hi, getElem?_eq_none hend]
    exact ⟨hquiet.status_set hs none, rfl, i, hi, hend⟩

theorem skipBackward_off (h : OffEnd parts RI it) (turns : Nat) :
    OffEnd parts RI (skipEmptyDataBlocksBackward l turns it) := by
  cases turns with
  | zero => exact h
  | succ turns =>
    obtain ⟨i, hi, hend⟩ := h.index
    have hquiet : Quiet l parts RD it := h.quiet
    rw [skipEmptyDataBlocksBackward, h.current_none, index_current hs hi, getElem?_eq_none hend]
    exact ⟨hquiet.status_set hs none, rfl, i, hi, hend⟩

theorem skipForward_on {turns : Nat} (h : OnBlock l parts RI RD it i j)
    (hturns : parts.length ≤ turns + i) :
    Tracks l parts RI RD (skipEmptyDataBlocksForward l turns it) (base parts i + j) := by
  induction turns generalizing it i j with
  | zero =>
    obtain ⟨-, -, x, d, hd⟩ := h
    have hlt := (List.getElem?_eq_some_iff.mp hd.block).1
    omega
  | succ turns ih =>
    obtain ⟨x, hx, hle⟩ : ∃ x, parts[i]? = some x ∧ j ≤ x.2.length := by
      obtain ⟨-, -, x, d, hd⟩ := h
      exact ⟨x, hd.block, hd.le⟩
    have hcurrent := h.current_eq hs hx
    rw [skipEmptyDataBlocksForward, hcurrent]
    by_cases hj : j < x.2.length
    · rw [getElem?_eq_getElem hj, if_pos isSome_some]
      exact .inl ⟨i, j, x, h, hx, hj, rfl⟩
    · obtain rfl : j = x.2.length := by omega
      have hi : i < parts.length := (List.getElem?_eq_some_iff.mp hx).1
      have hnext : RI (l.index.next it.index) (i + 1) :=
        hs.index.next h.2.1 (by rw [length_map]; exact hi)
      rw [getElem?_eq_none (le_refl _), index_current hs h.2.1, hx, ← base_succ hx]
      simp only [isSome_none, map_some, isNone_some, Bool.false_eq_true, if_false]
      by_cases hlast : i + 1 < parts.length
      · have hy := getElem?_eq_getElem hlast
        obtain ⟨j', hj'⟩ := onIndex_on hs h.quiet hnext hy
        exact @ih _ (i + 1) 0 (hj'.onData hy (hs.data hy).seekToFirst (Nat.zero_le _)) (by omega)
      · refine .inr ⟨skipForward_off hs ((onIndex_off hs h.quiet hnext (by omega)).onData _) turns, ?_⟩
        rw [show i + 1 = parts.length by omega, base_length]

/-- Where the iterator goes when it leaves block `i` at its start. -/
def before (parts : List (F × List E)) (i : Nat) : Nat :=
  if base parts i = 0 then (parts.flatMap Prod.snd).length else base parts i - 1

theorem skipBackward_on {turns : Nat} (h : OnBlock l parts RI RD it i j) (hturns : i < turns)
    {x : F × List E} (hx : parts[i]? = some x) :
    Tracks l parts RI RD (skipEmptyDataBlocksBackward l turns it)
      (if j < x.2.length then base parts i + j else before parts i) := by
  induction turns generalizing it i j x with
  | zero => omega
  | succ turns ih =>
    rw [skipEmptyDataBlocksBackward, h.current_eq hs hx]
    by_cases hj : j < x.2.length
    · rw [getElem?_eq_getElem hj, if_pos isSome_some, if_pos hj]
      exact .inl ⟨i, j, x, h, hx, hj, rfl⟩
    · have hi : i < parts.length := (List.getElem?_eq_some_iff.mp hx).1
      have hindex : i < (parts.map Prod.fst).length := by rw [length_map]; exact hi
      rw [getElem?_eq_none (by omega), index_current hs h.2.1, hx, if_neg hj]
      simp only [isSome_none, map_some, isNone_some, Bool.false_eq_true, if_false]
      cases i with
      | zero =>
        have hprev := hs.index.prev_zero h.2.1 hindex
        rw [length_map] at hprev
        refine .inr ⟨skipBackward_off hs ((onIndex_off hs h.quiet hprev (le_refl _)).onData _) turns, ?_⟩
        unfold before
        rw [base_zero, if_pos rfl]
      | succ i =>
        have hprev := hs.index.prev_succ h.2.1 hindex
        have hy : parts[i]? = some parts[i] := getElem?_eq_getElem (by omega)
        obtain ⟨j', hj'⟩ := onIndex_on hs h.quiet hprev hy
        have hlast := hj'.onData hy (hs.data hy).seekToLast (Nat.sub_le _ _)
        have hbase := base_succ hy
        have hrest := ih hlast (by omega) hy
        by_cases hempty : parts[i].2.length = 0
        · simp_all [before]
        · rw [if_pos (by omega)] at hrest
          unfold before
          rw [if_neg (by omega), show base parts (i + 1) - 1 =
            base parts i + (parts[i].2.length - 1) by omega]
          exact hrest

theorem skipBackward_all (h : OnBlock l parts RI RD it i j) {x : F × List E}
    (hx : parts[i]? = some x) :
    Tracks l parts RI RD (skipEmptyDataBlocksBackward l l.turns it)
      (if j < x.2.length then base parts i + j else before parts i) := by
  have hi := (List.getElem?_eq_some_iff.mp hx).1
  have hturns := hs.turns
  exact skipBackward_on hs h (by omega) hx

end Served

/-- **Two-level iterators** are faithful to the entries of all blocks. -/
theorem Serves.faithful [DecidableEq H] (hs : Serves l separator key rank wellFormed parts RI RD) :
    (machine l).Faithful key rank wellFormed (parts.flatMap Prod.snd) (Tracks l parts RI RD) where
  current := by
    rintro it p (⟨i, j, x, h, hx, hj, rfl⟩ | ⟨h, hend⟩)
    · rw [getElem?_flatMap hx hj]
      exact h.current_eq hs hx
    · rw [getElem?_eq_none hend]
      exact h.current_none
  error := by
    intro it p h
    obtain ⟨i, hi⟩ := h.index
    show it.status.or ((l.index.error it.index).or (it.data.bind l.data.error)) = none
    rw [h.quiet.status, hs.index.error hi, h.quiet.data_error hs]
    rfl
  seekToFirst := by
    intro it p h
    obtain ⟨i, hi⟩ := h.index
    have hfirst := hs.index.seekToFirst hi
    by_cases hpos : 0 < parts.length
    · have hx := getElem?_eq_getElem hpos
      obtain ⟨j, hj⟩ := onIndex_on hs h.quiet hfirst hx
      have hdata := hj.onData hx (hs.data hx).seekToFirst (Nat.zero_le _)
      exact skipForward_on hs hdata (by have := hs.turns; omega)
    · refine .inr ⟨skipForward_off hs ((onIndex_off hs h.quiet hfirst (by omega)).onData _) _, ?_⟩
      rw [length_eq_zero_iff.mp (by omega : parts.length = 0)]
      exact le_refl _
  seekToLast := by
    intro it p h
    obtain ⟨i, hi⟩ := h.index
    have hlast := hs.index.seekToLast hi
    rw [length_map] at hlast
    by_cases hpos : 0 < parts.length
    · have hx : parts[parts.length - 1]? = some parts[parts.length - 1] :=
        getElem?_eq_getElem (by omega)
      obtain ⟨j, hj⟩ := onIndex_on hs h.quiet hlast hx
      have hdata := hj.onData hx (hs.data hx).seekToLast (Nat.sub_le _ _)
      have hskip := skipBackward_all hs hdata hx
      have hbase := base_succ hx
      rw [show parts.length - 1 + 1 = parts.length by omega, base_length] at hbase
      unfold before at hskip
      rw [hbase]
      split_ifs at hskip with hj hzero
      · rwa [show base parts (parts.length - 1) + parts[parts.length - 1].2.length - 1 =
          base parts (parts.length - 1) + (parts[parts.length - 1].2.length - 1) by omega]
      · rw [hbase, show parts[parts.length - 1].2.length = 0 by omega, hzero] at hskip
        rw [show parts[parts.length - 1].2.length = 0 by omega, hzero]
        exact hskip
      · rwa [show parts[parts.length - 1].2.length = 0 by omega, Nat.add_zero]
    · have hnil : parts = [] := length_eq_zero_iff.mp (by omega)
      refine .inr ⟨skipBackward_off hs ((onIndex_off hs h.quiet hlast (by omega)).onData _) _, ?_⟩
      rw [hnil]
      exact le_refl _
  seek := by
    intro it p t k h ht hk
    obtain ⟨i₀, hi₀⟩ := h.index
    have hordered := hs.ordered t ht
    obtain ⟨i, hi⟩ := Machine.exists_cutAt_of_le hordered.index (rank t)
    have hindex := hs.index.seek hi₀ ht hi
    by_cases hlt : i < parts.length
    · have hx : parts[i]? = some parts[i] := getElem?_eq_getElem hlt
      have hstrict : Strict key parts[i].2 :=
        (pairwise_flatMap.mp hordered.data).1 _ (getElem_mem hlt)
      obtain ⟨j, hj⟩ := Machine.exists_cutAt hstrict (rank t)
      obtain rfl := hk.unique (hordered.cutAt hi hx hj)
      obtain ⟨j', hj'⟩ := onIndex_on hs h.quiet hindex hx
      have hdata := hj'.onData hx (fun hd => (hs.data hx).seek hd ht hj) hj.le
      exact skipForward_on hs hdata (by have := hs.turns; omega)
    · obtain rfl := hk.unique (hordered.cutAt_end hi (by omega))
      exact .inr ⟨skipForward_off hs ((onIndex_off hs h.quiet hindex (by omega)).onData _) _, le_refl _⟩
  next := by
    rintro it p (⟨i, j, x, h, hx, hj, rfl⟩ | ⟨h, hend⟩) hp
    · rw [Nat.add_assoc]
      have hdata := h.onData hx (fun hd => (hs.data hx).next hd hj) hj
      exact skipForward_on hs hdata (by have := hs.turns; omega)
    · omega
  prev_zero := by
    rintro it (⟨i, j, x, h, hx, hj, hp⟩ | ⟨h, hend⟩) hpos
    · have hbase : base parts i = 0 := by omega
      obtain rfl : j = 0 := by omega
      have hi : i < parts.length := (List.getElem?_eq_some_iff.mp hx).1
      have hprev := h.onData hx (fun hd => (hs.data hx).prev_zero hd hj) (le_refl _)
      have hskip := skipBackward_all hs hprev hx
      rw [if_neg (lt_irrefl _)] at hskip
      unfold before at hskip
      rwa [if_pos hbase] at hskip
    · omega
  prev_succ := by
    rintro it p (⟨i, j, x, h, hx, hj, hp⟩ | ⟨h, hend⟩) hlt
    · have hi : i < parts.length := (List.getElem?_eq_some_iff.mp hx).1
      cases j with
      | zero =>
        have hprev := h.onData hx (fun hd => (hs.data hx).prev_zero hd hj) (le_refl _)
        have hskip := skipBackward_all hs hprev hx
        rw [if_neg (lt_irrefl _)] at hskip
        unfold before at hskip
        rwa [if_neg (by omega), show base parts i - 1 = p by omega] at hskip
      | succ j =>
        have hprev := h.onData hx (fun hd => (hs.data hx).prev_succ hd hj) (by omega)
        have hskip := skipBackward_all hs hprev hx
        rwa [if_pos (by omega), show base parts i + j = p by omega] at hskip
    · omega

end Faithful

/-! ## Errors -/

section Errors

variable [DecidableEq H] {l : Levels I D F E H τ ε} {it : TwoLevelIterator I D H ε}

/-- The handle that `InitDataBlock` passes to the block function, if it does. -/
def opensBlock (l : Levels I D F E H τ ε) (it : TwoLevelIterator I D H ε) : Option H :=
  match l.index.current it.index with
  | none => none
  | some x => if it.data.isSome ∧ l.handle x = it.dataBlockHandle then none else some (l.handle x)

/-- The handles that the loop over empty blocks passes to the block function, where `f` moves the
    index iterator and `g` the data iterator. -/
def opensSkipping (l : Levels I D F E H τ ε) (f : I → I) (g : D → D) :
    Nat → TwoLevelIterator I D H ε → List H
  | 0, _ => []
  | turns + 1, it =>
    if (it.current l).isSome then []
    else if (l.index.current it.index).isNone then []
    else
      (opensBlock l { it with index := f it.index }).toList ++
        opensSkipping l f g turns ((it.onIndex l f).onData g)

def opens (l : Levels I D F E H τ ε) (it : TwoLevelIterator I D H ε) : Call τ → List H
  | .seekToFirst =>
    (opensBlock l { it with index := l.index.seekToFirst it.index }).toList ++
      opensSkipping l l.index.next l.data.seekToFirst l.turns
        ((it.onIndex l l.index.seekToFirst).onData l.data.seekToFirst)
  | .seekToLast =>
    (opensBlock l { it with index := l.index.seekToLast it.index }).toList ++
      opensSkipping l l.index.prev l.data.seekToLast l.turns
        ((it.onIndex l l.index.seekToLast).onData l.data.seekToLast)
  | .seek t =>
    (opensBlock l { it with index := l.index.seek t it.index }).toList ++
      opensSkipping l l.index.next l.data.seekToFirst l.turns
        ((it.onIndex l (l.index.seek t)).onData (l.data.seek t))
  | .next => opensSkipping l l.index.next l.data.seekToFirst l.turns (it.onData l.data.next)
  | .prev => opensSkipping l l.index.prev l.data.seekToLast l.turns (it.onData l.data.prev)

/-- An error has been saved, or the data iterator has one that stays. -/
def Failed (P : D → Prop) (it : TwoLevelIterator I D H ε) : Prop :=
  it.status ≠ none ∨ ∃ d, it.data = some d ∧ P d

variable {P : D → Prop}

omit [DecidableEq H] in
theorem Failed.error_ne (hP : l.data.Latched P) (h : Failed P it) : it.error l ≠ none := by
  unfold error
  obtain h | ⟨d, hd, hp⟩ := h
  · obtain ⟨e, he⟩ := ne_none_iff_exists'.mp h
    rw [he]
    exact some_ne_none _
  · obtain ⟨e, he⟩ := ne_none_iff_exists'.mp (hP.error hp)
    rw [hd, bind_some, he]
    cases it.status <;> cases l.index.error it.index <;> exact some_ne_none _

omit [DecidableEq H] in
theorem Failed.setDataIterator (hP : l.data.Latched P) (h : Failed P it) (data : Option D) :
    (it.setDataIterator l data).status ≠ none := by
  show it.status.or (it.data.bind l.data.error) ≠ none
  obtain h | ⟨d, hd, hp⟩ := h
  · obtain ⟨e, he⟩ := ne_none_iff_exists'.mp h
    rw [he]
    exact some_ne_none _
  · rw [hd, bind_some]
    cases it.status with
    | none => exact hP.error hp
    | some e => exact some_ne_none _

omit [DecidableEq H] in
theorem Failed.onData (h : Failed P it) {f : D → D} (hf : ∀ d, P d → P (f d)) :
    Failed P (it.onData f) := by
  refine h.imp id ?_
  rintro ⟨d, hd, hp⟩
  refine ⟨f d, ?_, hf d hp⟩
  show it.data.map f = some (f d)
  rw [hd]
  rfl

theorem Failed.initDataBlock (hP : l.data.Latched P) (h : Failed P it) :
    Failed P (it.initDataBlock l) := by
  unfold TwoLevelIterator.initDataBlock
  cases l.index.current it.index with
  | none => exact .inl (h.setDataIterator hP none)
  | some x =>
    dsimp only
    split_ifs
    · exact h
    · exact .inl (h.setDataIterator hP (some (l.blockFunction (l.handle x))))

theorem failed_of_opensBlock (hopen : ∃ handle ∈ opensBlock l it, P (l.blockFunction handle)) :
    Failed P (it.initDataBlock l) := by
  obtain ⟨handle, hopen, hp⟩ := hopen
  unfold opensBlock at hopen
  unfold TwoLevelIterator.initDataBlock
  cases hx : l.index.current it.index with
  | none =>
    rw [hx] at hopen
    cases hopen
  | some x =>
    rw [hx] at hopen
    dsimp only at hopen ⊢
    split_ifs at hopen ⊢
    · cases hopen
    · obtain rfl := Option.some.inj hopen
      exact .inr ⟨_, rfl, hp⟩

theorem failed_onIndex (hP : l.data.Latched P) {f : I → I}
    (h : Failed P it ∨
      ∃ handle ∈ opensBlock l { it with index := f it.index }, P (l.blockFunction handle)) :
    Failed P (it.onIndex l f) := by
  obtain h | h := h
  · exact Failed.initDataBlock hP h
  · exact failed_of_opensBlock h

def skipBlocks (l : Levels I D F E H τ ε) (f : I → I) (g : D → D) :
    Nat → TwoLevelIterator I D H ε → TwoLevelIterator I D H ε
  | 0, it => it
  | turns + 1, it =>
    if (it.current l).isSome then it
    else if (l.index.current it.index).isNone then it.setDataIterator l none
    else skipBlocks l f g turns ((it.onIndex l f).onData g)

theorem skipEmptyDataBlocksForward_eq (turns : Nat) (it : TwoLevelIterator I D H ε) :
    skipEmptyDataBlocksForward l turns it =
      skipBlocks l l.index.next l.data.seekToFirst turns it := by
  induction turns generalizing it with
  | zero => rfl
  | succ turns ih => rw [skipEmptyDataBlocksForward, skipBlocks, ih]

theorem skipEmptyDataBlocksBackward_eq (turns : Nat) (it : TwoLevelIterator I D H ε) :
    skipEmptyDataBlocksBackward l turns it =
      skipBlocks l l.index.prev l.data.seekToLast turns it := by
  induction turns generalizing it with
  | zero => rfl
  | succ turns ih => rw [skipEmptyDataBlocksBackward, skipBlocks, ih]

section

variable (hP : l.data.Latched P)
include hP

theorem failed_opens {f : I → I} {g : D → D} (hg : ∀ d, P d → P (g d)) {more : List H}
    (h : Failed P it ∨ ∃ handle ∈ (opensBlock l { it with index := f it.index }).toList ++ more,
      P (l.blockFunction handle)) :
    Failed P ((it.onIndex l f).onData g) ∨ ∃ handle ∈ more, P (l.blockFunction handle) := by
  obtain h | ⟨handle, hmem, hp⟩ := h
  · exact .inl ((failed_onIndex hP (.inl h)).onData hg)
  · obtain hmem | hmem := mem_append.mp hmem
    · exact .inl ((failed_onIndex hP (.inr ⟨handle, mem_toList.mp hmem, hp⟩)).onData hg)
    · exact .inr ⟨handle, hmem, hp⟩

theorem failed_skipBlocks {f : I → I} {g : D → D} (hg : ∀ d, P d → P (g d))
    {turns : Nat} (h : Failed P it ∨
      ∃ handle ∈ opensSkipping l f g turns it, P (l.blockFunction handle)) :
    Failed P (skipBlocks l f g turns it) := by
  induction turns generalizing it with
  | zero => exact h.resolve_right fun ⟨_, hmem, _⟩ => not_mem_nil hmem
  | succ turns ih =>
    rw [opensSkipping] at h
    rw [skipBlocks]
    split_ifs at h ⊢
    · exact h.resolve_right fun ⟨_, hmem, _⟩ => not_mem_nil hmem
    · exact .inl ((h.resolve_right fun ⟨_, hmem, _⟩ => not_mem_nil hmem).setDataIterator hP none)
    · exact ih (failed_opens hP hg h)

theorem failed_call {f f' : I → I} {g g' : D → D}
    (hg : ∀ d, P d → P (g d)) (hg' : ∀ d, P d → P (g' d)) {turns : Nat}
    (h : Failed P it ∨ ∃ handle ∈ (opensBlock l { it with index := f it.index }).toList ++
      opensSkipping l f' g' turns ((it.onIndex l f).onData g), P (l.blockFunction handle)) :
    Failed P (skipBlocks l f' g' turns ((it.onIndex l f).onData g)) := by
  exact failed_skipBlocks hP hg' (failed_opens hP hg h)

/-- **Errors are saved.** A call on a failed iterator, and one that opens a block which fails,
    leaves a failed iterator. -/
theorem failed_step {it' : TwoLevelIterator I D H ε} (call : Call τ)
    (hstep : (machine l).step it call = some it')
    (h : Failed P it ∨ ∃ handle ∈ opens l it call, P (l.blockFunction handle)) : Failed P it' := by
  have hfirst : ∀ d, P d → P (l.data.seekToFirst d) := fun _ => hP.seekToFirst
  have hlast : ∀ d, P d → P (l.data.seekToLast d) := fun _ => hP.seekToLast
  cases call with
  | seekToFirst =>
    obtain rfl := Option.some.inj hstep
    show Failed P (skipEmptyDataBlocksForward l _ _)
    rw [skipEmptyDataBlocksForward_eq]
    exact failed_call hP hfirst hfirst h
  | seekToLast =>
    obtain rfl := Option.some.inj hstep
    show Failed P (skipEmptyDataBlocksBackward l _ _)
    rw [skipEmptyDataBlocksBackward_eq]
    exact failed_call hP hlast hlast h
  | seek t =>
    obtain rfl := Option.some.inj hstep
    show Failed P (skipEmptyDataBlocksForward l _ _)
    rw [skipEmptyDataBlocksForward_eq]
    exact failed_call hP (fun _ => hP.seek t) hfirst h
  | next =>
    rw [Machine.step] at hstep
    split_ifs at hstep
    obtain rfl := Option.some.inj hstep
    show Failed P (skipEmptyDataBlocksForward l _ _)
    rw [skipEmptyDataBlocksForward_eq]
    exact failed_skipBlocks hP hfirst (h.imp_left fun h => h.onData fun _ => hP.next)
  | prev =>
    rw [Machine.step] at hstep
    split_ifs at hstep
    obtain rfl := Option.some.inj hstep
    show Failed P (skipEmptyDataBlocksBackward l _ _)
    rw [skipEmptyDataBlocksBackward_eq]
    exact failed_skipBlocks hP hlast (h.imp_left fun h => h.onData fun _ => hP.prev)

theorem latched : (machine l).Latched (Failed P) where
  error := Failed.error_ne hP
  seekToFirst := fun h => failed_step hP .seekToFirst rfl (.inl h)
  seekToLast := fun h => failed_step hP .seekToLast rfl (.inl h)
  seek := fun t h => failed_step hP (.seek t) rfl (.inl h)
  next := by
    intro it h
    show Failed P (skipEmptyDataBlocksForward l _ _)
    rw [skipEmptyDataBlocksForward_eq]
    exact failed_skipBlocks hP (fun _ => hP.seekToFirst) (.inl (h.onData fun _ => hP.next))
  prev := by
    intro it h
    show Failed P (skipEmptyDataBlocksBackward l _ _)
    rw [skipEmptyDataBlocksBackward_eq]
    exact failed_skipBlocks hP (fun _ => hP.seekToLast) (.inl (h.onData fun _ => hP.prev))

end

end Errors

end TwoLevelIterator

end LevelDB
