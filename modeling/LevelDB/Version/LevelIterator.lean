/-
  Iterators over the files of a level (`db/version_set.cc`).

  `LevelFileNumIterator` is a cursor over the files of a level by their largest keys.
  `NewConcatenatingIterator` puts a two-level iterator over it, which opens the tables of the files
  one after the other; it is a cursor over the entries of all files.
-/
import LevelDB.Table.TwoLevelCursor
import LevelDB.Version.Version

namespace LevelDB

open List Cursor SortedList

variable {K : Type} [LinearOrder K]

/-! ## Files -/

/-- The binary search stops at the first file whose largest key is at or after the target. -/
theorem cutAt_findFile {files : List (FileMetaData K)} (h : SortedDisjoint files)
    (hr : ∀ f ∈ files, f.smallest ≤ f.largest) (target : InternalKey K) :
    Machine.CutAt FileMetaData.largest files target (findFile files target) := by
  have hmono : files.Pairwise fun f g =>
      decide (g.largest < target) = true → decide (f.largest < target) = true := by
    refine (h.largest_mono hr).imp ?_
    intro f g hfg hg
    exact decide_eq_true (hfg.trans (of_decide_eq_true hg))
  have hle : findFile files target ≤ files.length := by
    rw [findFile_eq h hr]
    exact findIdx_le_length
  obtain ⟨hbefore, hafter⟩ := bisect_cut hmono
  have hcut : Machine.CutAt FileMetaData.largest (files.take (findFile files target) ++
      files.drop (findFile files target)) target (files.take (findFile files target)).length :=
    Machine.cutAt_append (fun f hf => of_decide_eq_true (hbefore f hf))
      fun f hf => not_lt.mp (of_decide_eq_false (hafter f hf))
  rwa [List.take_append_drop, length_take, Nat.min_eq_left hle] at hcut

/-- `class Version::LevelFileNumIterator`: the files and `index_`. -/
structure LevelFileNumIterator (K : Type) where
  flist : List (FileMetaData K)
  index : Nat

namespace LevelFileNumIterator

/-- `LevelFileNumIterator::LevelFileNumIterator`. -/
def new (flist : List (FileMetaData K)) : LevelFileNumIterator K := ⟨flist, flist.length⟩

/-- The calls of the iterator. -/
def machine : Machine (LevelFileNumIterator K) (FileMetaData K) (InternalKey K) Status where
  current it := it.flist[it.index]?
  error _ := none
  seekToFirst it := { it with index := 0 }
  seekToLast it := { it with index := if it.flist.isEmpty then 0 else it.flist.length - 1 }
  seek target it := { it with index := findFile it.flist target }
  next it := { it with index := it.index + 1 }
  prev it := { it with index := if it.index = 0 then it.flist.length else it.index - 1 }

/-- The iterator is a cursor over the files, by their largest keys. -/
theorem faithful {files : List (FileMetaData K)} (h : SortedDisjoint files)
    (hr : ∀ f ∈ files, f.smallest ≤ f.largest) :
    machine.Faithful FileMetaData.largest id (fun _ => True) files (fun it i => it = ⟨files, i⟩) where
  current := by
    rintro _ i rfl
    rfl
  error := fun _ => rfl
  seekToFirst := by
    rintro _ i rfl
    rfl
  seekToLast := by
    rintro _ i rfl
    cases files <;> rfl
  seek := by
    rintro _ i target k rfl - hk
    exact congrArg (mk files) ((cutAt_findFile h hr target).unique hk)
  next := by
    rintro _ i rfl -
    rfl
  prev_zero := by
    rintro _ rfl -
    rfl
  prev_succ := by
    rintro _ i rfl -
    rfl

end LevelFileNumIterator

/-! ## Entries -/

/-- The value of `LevelFileNumIterator`: the number and the size of the file. -/
def levelFileValue (f : FileMetaData K) : Bytes := encodeFixed64 f.number ++ encodeFixed64 f.fileSize

section Concatenating

variable {D E : Type} {data : Machine D E (InternalKey K) Status} {newIterator : Nat → Nat → D}
  {newErrorIterator : Status → D} {key : E → InternalKey K} {entries : FileMetaData K → List E}
  {files : List (FileMetaData K)} {turns : Nat}

/-- `Version::NewConcatenatingIterator`, over the iterators of the table cache. -/
def newConcatenatingIterator (data : Machine D E (InternalKey K) Status)
    (newIterator : Nat → Nat → D) (newErrorIterator : Status → D) (turns : Nat) :
    Levels (LevelFileNumIterator K) D (FileMetaData K) E Bytes (InternalKey K) Status where
  index := LevelFileNumIterator.machine
  data := data
  handle := levelFileValue
  blockFunction value :=
    if value.length ≠ 16 then
      newErrorIterator (.corruptionErr "FileReader invoked with unexpected value")
    else newIterator (decodeFixed64 value) (decodeFixed64 (value.drop 8))
  turns := turns

theorem blockFunction_levelFileValue {f : FileMetaData K} (hnumber : f.number < 2 ^ 64)
    (hsize : f.fileSize < 2 ^ 64) :
    (newConcatenatingIterator data newIterator newErrorIterator turns).blockFunction
      (levelFileValue f) = newIterator f.number f.fileSize := by
  have hlength : (levelFileValue f).length = 16 := by
    rw [levelFileValue, length_append, length_encodeFixed64, length_encodeFixed64]
  have hsecond : (levelFileValue f).drop 8 = encodeFixed64 f.fileSize ++ [] := by
    rw [levelFileValue, drop_left' (length_encodeFixed64 _), append_nil]
  unfold newConcatenatingIterator
  dsimp only
  rw [if_neg (not_not.mpr hlength), hsecond, decodeFixed64_encodeFixed64 hsize, levelFileValue,
    decodeFixed64_encodeFixed64 hnumber]

/-- What the files of a sorted level have to satisfy: the iterator of each table is a cursor over
    its entries, which are in the range of the file. -/
structure Concatenable (data : Machine D E (InternalKey K) Status) (newIterator : Nat → Nat → D)
    (key : E → InternalKey K) (entries : FileMetaData K → List E) (files : List (FileMetaData K)) :
    Prop where
  sorted : SortedDisjoint files
  ranges : ∀ f ∈ files, f.smallest ≤ f.largest
  fits : ∀ f ∈ files, f.number < 2 ^ 64 ∧ f.fileSize < 2 ^ 64
  numbers : (files.map FileMetaData.number).Nodup
  strict : ∀ f ∈ files, Strict key (entries f)
  bounds : ∀ f ∈ files, ∀ e ∈ entries f, f.smallest ≤ key e ∧ key e ≤ f.largest
  opens : ∀ f ∈ files, data.At key id (fun _ => True) (entries f) (newIterator f.number f.fileSize)
    (entries f).length

namespace Concatenable

variable (h : Concatenable data newIterator key entries files)
include h

theorem ordered :
    TwoLevelIterator.Ordered FileMetaData.largest key (files.map fun f => (f, entries f)) := by
  refine TwoLevelIterator.ordered_of_adjacent ?_ ?_ ?_ ?_
  · rw [List.map_map]
    exact (List.map_id files).symm ▸ (h.sorted.largest_mono h.ranges).imp le_of_lt
  · exact List.forall_mem_map.mpr h.strict
  · exact List.forall_mem_map.mpr fun f hf e he => (h.bounds f hf e he).2
  · intro i x y hx hy e he
    obtain ⟨f, hf, rfl⟩ := Option.map_eq_some_iff.mp (getElem?_map ▸ hx)
    obtain ⟨g, hg, rfl⟩ := Option.map_eq_some_iff.mp (getElem?_map ▸ hy)
    obtain ⟨hi, rfl⟩ := List.getElem?_eq_some_iff.mp hf
    obtain ⟨hi', rfl⟩ := List.getElem?_eq_some_iff.mp hg
    have hlt := pairwise_iff_getElem.mp h.sorted i (i + 1) hi hi' (Nat.lt_succ_self i)
    exact hlt.trans_le (h.bounds _ (mem_of_getElem? hg) e he).1

/-- The values of the index iterator are distinct, as the numbers of the files are. -/
theorem nodup_values : (files.map levelFileValue).Nodup := by
  refine List.Nodup.of_map decodeFixed64 ?_
  have hdecode : files.map (fun f => decodeFixed64 (levelFileValue f)) =
      files.map FileMetaData.number :=
    map_congr_left fun f hf => decodeFixed64_encodeFixed64 (h.fits f hf).1 _
  have hnumbers := h.numbers
  rw [← hdecode] at hnumbers
  rwa [List.map_map]

end Concatenable

/-- **Iterators over a level** are cursors over the entries of all its files. -/
theorem newConcatenatingIterator_at (newErrorIterator : Status → D)
    (h : Concatenable data newIterator key entries files) (hturns : files.length ≤ turns) :
    (TwoLevelIterator.machine (newConcatenatingIterator data newIterator newErrorIterator turns)).At
      key id (fun _ => True) (files.flatMap entries)
      (TwoLevelIterator.new (LevelFileNumIterator.new files)) (files.flatMap entries).length := by
  let parts := files.map fun f => (f, entries f)
  have hfirst : parts.map Prod.fst = files := by simp [parts, Function.comp_def]
  have hflat : parts.flatMap Prod.snd = files.flatMap entries := by rw [flatMap_map]
  have hpart : ∀ {i : Nat} {x}, parts[i]? = some x → ∃ f, files[i]? = some f ∧ x = (f, entries f) := by
    intro i x hx
    obtain ⟨f, hf, rfl⟩ := Option.map_eq_some_iff.mp (getElem?_map ▸ hx)
    exact ⟨f, hf, rfl⟩
  -- one relation for each table, under the number of its file in the level
  have hopens : ∀ i : Nat, ∃ R : D → Nat → Prop, ∀ f, files[i]? = some f →
      data.Faithful key id (fun _ => True) (entries f) R ∧
      R (newIterator f.number f.fileSize) (entries f).length := by
    intro i
    cases hf : files[i]? with
    | none => exact ⟨fun _ _ => False, fun f hf' => absurd hf' (by simp)⟩
    | some f =>
      obtain ⟨R, hR⟩ := h.opens f (mem_of_getElem? hf)
      exact ⟨R, fun g hg => Option.some.inj hg ▸ hR⟩
  choose R hR using hopens
  have hserves : TwoLevelIterator.Serves
      (newConcatenatingIterator data newIterator newErrorIterator turns)
      FileMetaData.largest key id (fun _ => True) parts (fun it i => it = ⟨files, i⟩) R := by
    refine ⟨?_, ?_, ?_, ?_, ?_, fun _ _ => h.ordered⟩
    · rw [hfirst]
      exact LevelFileNumIterator.faithful h.sorted h.ranges
    · intro i x hx
      obtain ⟨f, hf, rfl⟩ := hpart hx
      exact (hR i f hf).1
    · intro i x hx
      obtain ⟨f, hf, rfl⟩ := hpart hx
      have hfits := h.fits f (mem_of_getElem? hf)
      have hopen : (newConcatenatingIterator data newIterator newErrorIterator
          turns).blockFunction (levelFileValue f) = newIterator f.number f.fileSize :=
        blockFunction_levelFileValue hfits.1 hfits.2
      exact hopen.symm ▸ (hR i f hf).2
    · rw [List.map_map]
      exact h.nodup_values
    · exact (length_map _).trans_le hturns
  refine ⟨_, hflat ▸ hserves.faithful, .inr ⟨⟨rfl, rfl, _, rfl, ?_⟩, ?_⟩⟩
  · exact le_of_eq (length_map _)
  · exact le_of_eq (congrArg List.length hflat)

end Concatenating

end LevelDB
