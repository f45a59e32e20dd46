/-
  Blocks (`table/block_builder.cc`, `table/block.cc`).

  An entry holds as many bytes of the previous key as it shares with it, except at the restart
  points, whose offsets are stored after the entries. `BlockIter` moves over the bytes; a
  `BlockLayout` says what the bytes mean.
-/
import LevelDB.Lib.Cursor
import LevelDB.Table.Comparator

namespace LevelDB

open List Option

/-! ## Writing -/

/-- `class BlockBuilder`. -/
structure BlockBuilder where
  buffer : Bytes
  restarts : List Nat
  counter : Nat
  lastKey : Bytes
  deriving DecidableEq, Repr

def sharedLength : Bytes → Bytes → Nat
  | a :: as, b :: bs => if a = b then sharedLength as bs + 1 else 0
  | _, _ => 0

/-- The three lengths in front of an entry, as `uint32_t`. -/
def entryHeader (shared nonShared valueLength : Nat) : Bytes :=
  encodeVarint32 (shared % 2 ^ 32) ++ (encodeVarint32 (nonShared % 2 ^ 32) ++
    encodeVarint32 (valueLength % 2 ^ 32))

def encodeEntry (shared : Nat) (key value : Bytes) : Bytes :=
  entryHeader shared (key.length - shared) value.length ++ (key.drop shared ++ value)

namespace BlockBuilder

/-- `BlockBuilder::BlockBuilder`, and `Reset`. -/
def init : BlockBuilder := ⟨[], [0], 0, []⟩

def currentSizeEstimate (b : BlockBuilder) : Nat := b.buffer.length + b.restarts.length * 4 + 4

def add (interval : Nat) (b : BlockBuilder) (key value : Bytes) : BlockBuilder :=
  if b.counter < interval then
    let shared := sharedLength b.lastKey key
    { buffer := b.buffer ++ encodeEntry shared key value
      restarts := b.restarts
      counter := b.counter + 1
      lastKey := b.lastKey.take shared ++ key.drop shared }
  else
    { buffer := b.buffer ++ encodeEntry 0 key value
      restarts := b.restarts ++ [b.buffer.length % 2 ^ 32]
      counter := 1
      lastKey := key }

def finish (b : BlockBuilder) : Bytes :=
  b.buffer ++ (b.restarts.flatMap (fun r => encodeFixed32 (UInt32.ofNat r)) ++
    encodeFixed32 (UInt32.ofNat b.restarts.length))

/-- The builder after `Add` for each of the entries. -/
def addAll (interval : Nat) (es : List (Bytes × Bytes)) : BlockBuilder :=
  es.foldl (fun b e => b.add interval e.1 e.2) init

end BlockBuilder

/-! ## Reading -/

def getEntryHeader (input : Bytes) : Option (Nat × Nat × Nat × Bytes) := do
  let (shared, rest) ← getVarint32 input
  let (nonShared, rest) ← getVarint32 rest
  let (valueLength, rest) ← getVarint32 rest
  some (shared, nonShared, valueLength, rest)

/-- `DecodeEntry` on the bytes up to the restart array, with its short cut for three small
    lengths. -/
def decodeEntry (input : Bytes) : Option (Nat × Nat × Nat × Bytes) :=
  let header := match input with
    | a :: b :: c :: rest =>
      if a.toNat ||| b.toNat ||| c.toNat < 128 then some (a.toNat, b.toNat, c.toNat, rest)
      else getEntryHeader input
    | _ => none
  header.bind fun (shared, nonShared, valueLength, rest) =>
    if rest.length % 2 ^ 32 < (nonShared + valueLength) % 2 ^ 32 then none
    else some (shared, nonShared, valueLength, rest)

/-- `class Block::Iter`. The value is given by its place in the data. -/
structure BlockIter where
  data : Bytes
  restarts : Nat
  numRestarts : Nat
  current : Nat
  restartIndex : Nat
  key : Bytes
  valueOffset : Nat
  valueLength : Nat
  status : Option Status
  deriving DecidableEq, Repr

namespace BlockIter

/-- `Block::Iter::Iter`. -/
def new (data : Bytes) (restarts numRestarts : Nat) : BlockIter where
  data := data
  restarts := restarts
  numRestarts := numRestarts
  current := restarts
  restartIndex := numRestarts
  key := []
  valueOffset := 0
  valueLength := 0
  status := none

def valid (it : BlockIter) : Bool := decide (it.current < it.restarts)

def value (it : BlockIter) : Bytes := (it.data.drop it.valueOffset).take it.valueLength

def nextEntryOffset (it : BlockIter) : Nat := (it.valueOffset + it.valueLength) % 2 ^ 32

def getRestartPoint (it : BlockIter) (index : Nat) : Nat :=
  (decodeFixed32 (it.data.drop (it.restarts + index * 4))).toNat

def seekToRestartPoint (it : BlockIter) (index : Nat) : BlockIter :=
  { it with key := [], restartIndex := index, valueOffset := it.getRestartPoint index, valueLength := 0 }

def toEnd (it : BlockIter) : BlockIter :=
  { it with current := it.restarts, restartIndex := it.numRestarts }

def corruptionError (it : BlockIter) : BlockIter :=
  { it.toEnd with
    status := some (.corruptionErr "bad entry in block"), key := [], valueOffset := 0, valueLength := 0 }

/-- The loop at the end of `ParseNextKey`: the restart points that have been passed. -/
def passRestarts (it : BlockIter) : Nat → Nat → Nat
  | 0, r => r
  | turns + 1, r =>
    if r + 1 < it.numRestarts ∧ it.getRestartPoint (r + 1) < it.current then
      it.passRestarts turns (r + 1)
    else r

def parseNextKey (it : BlockIter) : Bool × BlockIter :=
  let it := { it with current := it.nextEntryOffset }
  if it.restarts ≤ it.current then (false, it.toEnd)
  else
    match decodeEntry ((it.data.take it.restarts).drop it.current) with
    | none => (false, it.corruptionError)
    | some (shared, nonShared, valueLength, rest) =>
      if it.key.length < shared then (false, it.corruptionError)
      else
        (true, { it with
          key := it.key.take shared ++ rest.take nonShared
          valueOffset := it.restarts - rest.length + nonShared
          valueLength := valueLength
          restartIndex := it.passRestarts it.numRestarts it.restartIndex })

def next (it : BlockIter) : BlockIter := it.parseNextKey.2

/-- The loops that go on as long as the next entry starts before `limit`. Every entry takes at
    least three bytes. -/
def scanTo (limit : Nat) : Nat → BlockIter → BlockIter
  | 0, it => it
  | turns + 1, it =>
    match it.parseNextKey with
    | (false, it) => it
    | (true, it) => if it.nextEntryOffset < limit then scanTo limit turns it else it

def seekToFirst (it : BlockIter) : BlockIter := (it.seekToRestartPoint 0).parseNextKey.2

def seekToLast (it : BlockIter) : BlockIter :=
  scanTo it.restarts (it.restarts + 1) (it.seekToRestartPoint (it.numRestarts - 1))

/-- The loop of `Prev` over the restart points, down to one before the entry. -/
def restartBefore (it : BlockIter) (original : Nat) : Nat → Option Nat
  | 0 => if original ≤ it.getRestartPoint 0 then none else some 0
  | r + 1 =>
    if original ≤ it.getRestartPoint (r + 1) then it.restartBefore original r else some (r + 1)

def prev (it : BlockIter) : BlockIter :=
  match it.restartBefore it.current it.restartIndex with
  | none => it.toEnd
  | some r => scanTo it.current (it.restarts + 1) (it.seekToRestartPoint r)

section Seek

variable (cmp : Bytes → Bytes → Ordering) (target : Bytes)

/-- The binary search of `Seek`, `none` for a restart point that is no entry. The numbers are
    `uint32_t`. -/
def findRestart (it : BlockIter) : Nat → Nat → Nat → Option Nat
  | 0, left, _ => some left
  | turns + 1, left, right =>
    if left < right then
      let mid := (left + right + 1) % 2 ^ 32 / 2
      match decodeEntry ((it.data.take it.restarts).drop (it.getRestartPoint mid)) with
      | none => none
      | some (shared, nonShared, _, rest) =>
        if shared ≠ 0 then none
        else if cmp (rest.take nonShared) target = .lt then it.findRestart turns mid right
        else it.findRestart turns left ((mid + (2 ^ 32 - 1)) % 2 ^ 32)
    else some left

/-- The linear search of `Seek`. -/
def scanFor : Nat → BlockIter → BlockIter
  | 0, it => it
  | turns + 1, it =>
    match it.parseNextKey with
    | (false, it) => it
    | (true, it) => if cmp it.key target = .lt then scanFor turns it else it

def seek (it : BlockIter) : BlockIter :=
  let compared := if it.valid then cmp it.key target else .eq
  if it.valid ∧ compared = .eq then it
  else
    let left := if compared = .lt then it.restartIndex else 0
    let right := if compared = .gt then it.restartIndex else it.numRestarts - 1
    match it.findRestart cmp target it.numRestarts left right with
    | none => it.corruptionError
    | some left =>
      let skipSeek := left = it.restartIndex ∧ compared = .lt
      scanFor cmp target (it.restarts + 1) (if skipSeek then it else it.seekToRestartPoint left)

end Seek

end BlockIter

/-! ## Blocks -/

/-- `class Block`. Contents that are no block have size 0. -/
structure Block where
  data : Bytes
  size : Nat
  restartOffset : Nat
  deriving DecidableEq, Repr

/-- What `NewIterator` returns: a `Block::Iter`, or an iterator without entries. -/
inductive Iter where
  | block (it : BlockIter)
  | empty (status : Option Status)
  deriving DecidableEq, Repr

namespace Block

def numRestarts (data : Bytes) (size : Nat) : Nat := (decodeFixed32 (data.drop (size - 4))).toNat

/-- `Block::Block`. -/
def new (contents : Bytes) : Block :=
  let size := contents.length
  if size < 4 then ⟨contents, 0, 0⟩
  else if (size - 4) / 4 < numRestarts contents size then ⟨contents, 0, 0⟩
  else ⟨contents, size, (size - (1 + numRestarts contents size) % 2 ^ 32 * 4) % 2 ^ 32⟩

def newIterator (b : Block) : Iter :=
  if b.size < 4 then .empty (some (.corruptionErr "bad block contents"))
  else if numRestarts b.data b.size = 0 then .empty none
  else .block (BlockIter.new b.data b.restartOffset (numRestarts b.data b.size))

end Block

namespace Iter

def current : Iter → Option (Bytes × Bytes)
  | block it => if it.valid then some (it.key, it.value) else none
  | empty _ => none

def status : Iter → Option Status
  | block it => it.status
  | empty status => status

def map (f : BlockIter → BlockIter) : Iter → Iter
  | block it => block (f it)
  | empty status => empty status

def machine (cmp : Bytes → Bytes → Ordering) : Cursor.Machine Iter (Bytes × Bytes) Bytes Status where
  current := current
  error := status
  seekToFirst := map BlockIter.seekToFirst
  seekToLast := map BlockIter.seekToLast
  seek target := map (BlockIter.seek cmp target)
  next := map BlockIter.next
  prev := map BlockIter.prev

end Iter

/-! ## Entries -/

theorem encodeVarint32_ne_nil (v : Nat) : encodeVarint32 v ≠ [] := by
  unfold encodeVarint32
  split_ifs <;> exact cons_ne_nil _ _

theorem three_le_entryHeader (a b c : Nat) : 3 ≤ (entryHeader a b c).length := by
  grind [length_pos_of_ne_nil, encodeVarint32_ne_nil, entryHeader, length_append]

theorem getVarint32_small {a : UInt8} (h : a.toNat < 128) (rest : Bytes) :
    getVarint32 (a :: rest) = some (a.toNat, rest) := by
  have hmark : ∀ x < 128, x &&& 128 = 0 := by decide +kernel
  rw [getVarint32, if_pos (hmark _ h)]

theorem decodeEntry_eq {input : Bytes} (h : 3 ≤ input.length) :
    decodeEntry input = (getEntryHeader input).bind fun (shared, nonShared, valueLength, rest) =>
      if rest.length % 2 ^ 32 < (nonShared + valueLength) % 2 ^ 32 then none
      else some (shared, nonShared, valueLength, rest) := by
  match input, h with
  | a :: b :: c :: rest, _ =>
    unfold decodeEntry
    by_cases hsmall : a.toNat ||| b.toNat ||| c.toNat < 128
    · have hab : a.toNat ||| b.toNat < 128 := lt_of_le_of_lt Nat.left_le_or hsmall
      have ha : a.toNat < 128 := lt_of_le_of_lt Nat.left_le_or hab
      have hb : b.toNat < 128 := lt_of_le_of_lt Nat.right_le_or hab
      have hc : c.toNat < 128 := lt_of_le_of_lt Nat.right_le_or hsmall
      have hheader : getEntryHeader (a :: b :: c :: rest) = some (a.toNat, b.toNat, c.toNat, rest) := by
        unfold getEntryHeader
        simp only [getVarint32_small ha, getVarint32_small hb, getVarint32_small hc, bind,
          bind_some]
      simp only [if_pos hsmall, hheader]
    · simp only [if_neg hsmall]

theorem decodeEntry_header {a b c : Nat} (ha : a < 2 ^ 32) (hb : b < 2 ^ 32) (hc : c < 2 ^ 32)
    {rest : Bytes} (hrest : b + c ≤ rest.length) (hlen : rest.length < 2 ^ 32) :
    decodeEntry (entryHeader a b c ++ rest) = some (a, b, c, rest) := by
  have hheader : getEntryHeader (entryHeader a b c ++ rest) = some (a, b, c, rest) := by
    unfold getEntryHeader entryHeader
    rw [Nat.mod_eq_of_lt ha, Nat.mod_eq_of_lt hb, Nat.mod_eq_of_lt hc, append_assoc,
      append_assoc, getVarint32_encodeVarint32 ha]
    simp only [bind, bind_some]
    rw [getVarint32_encodeVarint32 hb]
    simp only [bind_some]
    rw [getVarint32_encodeVarint32 hc]
    rfl
  have hthree : 3 ≤ (entryHeader a b c ++ rest).length := by
    have := three_le_entryHeader a b c
    rw [length_append]
    omega
  rw [decodeEntry_eq hthree, hheader, bind_some]
  dsimp only
  rw [if_neg]
  rw [Nat.mod_eq_of_lt hlen, Nat.mod_eq_of_lt (by omega)]
  omega

/-! ## The layout of a block -/

/-- An entry, with the number of bytes that it shares with the one before. -/
structure Item where
  shared : Nat
  key : Bytes
  value : Bytes

namespace Item

def encode (x : Item) : Bytes := encodeEntry x.shared x.key x.value

def entry (x : Item) : Bytes × Bytes := (x.key, x.value)

theorem length_encode (x : Item) : x.encode.length =
    (entryHeader x.shared (x.key.length - x.shared) x.value.length).length +
      (x.key.length - x.shared) + x.value.length := by
  unfold encode encodeEntry
  rw [length_append, length_append, length_drop]
  omega

theorem three_le_encode (x : Item) : 3 ≤ x.encode.length := by
  have := three_le_entryHeader x.shared (x.key.length - x.shared) x.value.length
  rw [length_encode]
  omega

end Item

/-- The offset of the item with number `i`, and of the end for `i` after the last one. -/
def itemOffset (items : List Item) (i : Nat) : Nat := ((items.take i).flatMap Item.encode).length

/-- The bytes of a block with these items, and with restart points at the items with the given
    numbers. -/
def blockBytes (items : List Item) (points : List Nat) : Bytes :=
  items.flatMap Item.encode ++
    (points.flatMap (fun p => encodeFixed32 (UInt32.ofNat (itemOffset items p))) ++
      encodeFixed32 (UInt32.ofNat points.length))

/-- What the bytes of a block mean. -/
structure BlockLayout where
  items : List Item
  points : List Nat
  size : (blockBytes items points).length < 2 ^ 32
  key_length : ∀ x ∈ items, x.key.length < 2 ^ 32
  shared_le : ∀ x ∈ items, x.shared ≤ x.key.length
  chained : ∀ i x y, items[i]? = some x → items[i + 1]? = some y →
    y.shared ≤ x.key.length ∧ x.key.take y.shared = y.key.take y.shared
  point_zero : points.head? = some 0
  points_sorted : points.Pairwise (· < ·)
  points_lt : ∀ p ∈ points, p ≠ 0 → p < items.length
  restart : ∀ p ∈ points, ∀ x, items[p]? = some x → x.shared = 0

theorem length_le_flatMap_encode (items : List Item) :
    items.length ≤ (items.flatMap Item.encode).length := by
  induction items with
  | nil => exact le_refl _
  | cons x items ih =>
    have hthree := x.three_le_encode
    rw [flatMap_cons, length_append, length_cons]
    omega

theorem itemOffset_mono (items : List Item) {i j : Nat} (h : i ≤ j) :
    itemOffset items i ≤ itemOffset items j := by
  unfold itemOffset
  obtain ⟨rest, hrest⟩ := take_prefix_take_left (l := items) h
  rw [← hrest, flatMap_append, length_append]
  omega

theorem itemOffset_succ {items : List Item} {i : Nat} {x : Item} (h : items[i]? = some x) :
    itemOffset items (i + 1) = itemOffset items i + x.encode.length := by
  unfold itemOffset
  rw [take_add_one, h, toList_some, flatMap_append, length_append,
    flatMap_singleton]

theorem itemOffset_lt {items : List Item} {i j : Nat} (h : i < j) (hi : i < items.length) :
    itemOffset items i < itemOffset items j := by
  have hsucc := itemOffset_succ (getElem?_eq_getElem hi)
  have hthree := (items[i]).three_le_encode
  have := itemOffset_mono items (show i + 1 ≤ j from h)
  omega

theorem itemOffset_of_le {items : List Item} {i : Nat} (h : items.length ≤ i) :
    itemOffset items i = (items.flatMap Item.encode).length := by
  unfold itemOffset
  rw [take_of_length_le h]

theorem drop_itemOffset (items : List Item) (i : Nat) :
    (items.flatMap Item.encode).drop (itemOffset items i) =
      (items.drop i).flatMap Item.encode := by
  unfold itemOffset
  conv_lhs => arg 2; rw [← List.take_append_drop i items, flatMap_append]
  exact drop_left

namespace BlockLayout

variable (L : BlockLayout)

def bytes : Bytes := blockBytes L.items L.points

def entries : List (Bytes × Bytes) := L.items.map Item.entry

def limit : Nat := itemOffset L.items L.items.length

/-- The number of the item at restart point `j`. -/
def point (j : Nat) : Nat := L.points.getD j 0

theorem length_bytes : L.bytes.length = L.limit + L.points.length * 4 + 4 := by
  unfold bytes blockBytes limit
  have hpoints : (L.points.flatMap
      fun p => encodeFixed32 (UInt32.ofNat (itemOffset L.items p))).length = L.points.length * 4 := by
    rw [length_flatMap]
    simp
  rw [length_append, length_append, hpoints, length_encodeFixed32,
    itemOffset_of_le (le_refl _)]
  omega

theorem length_lt : L.limit + L.points.length * 4 + 4 < 2 ^ 32 := L.length_bytes ▸ L.size

theorem points_pos : 0 < L.points.length := by
  cases h : L.points with
  | nil =>
    have hzero := L.point_zero
    rw [h] at hzero
    cases hzero
  | cons p rest => exact Nat.succ_pos _

theorem getElem?_points {j : Nat} (h : j < L.points.length) : L.points[j]? = some (L.point j) := by
  unfold point
  rw [getD_eq_getElem?_getD, getElem?_eq_getElem h]
  rfl

theorem point_mem {j : Nat} (h : j < L.points.length) : L.point j ∈ L.points :=
  mem_of_getElem? (L.getElem?_points h)

theorem point_first : L.point 0 = 0 := by
  have hzero := L.point_zero
  rw [head?_eq_getElem?, L.getElem?_points L.points_pos] at hzero
  exact Option.some.inj hzero

theorem point_lt_point {i j : Nat} (h : i < j) (hj : j < L.points.length) :
    L.point i < L.point j := by
  have hi : i < L.points.length := by omega
  have hlt := pairwise_iff_getElem.mp L.points_sorted i j hi hj h
  have hgi := L.getElem?_points hi
  have hgj := L.getElem?_points hj
  rw [getElem?_eq_getElem hi] at hgi
  rw [getElem?_eq_getElem hj] at hgj
  rwa [Option.some.inj hgi, Option.some.inj hgj] at hlt

theorem point_le_point {i j : Nat} (h : i ≤ j) (hj : j < L.points.length) :
    L.point i ≤ L.point j := by
  obtain rfl | h := Nat.eq_or_lt_of_le h
  · exact le_refl _
  · exact (L.point_lt_point h hj).le

theorem point_le {j : Nat} (h : j < L.points.length) : L.point j ≤ L.items.length := by
  by_cases hzero : L.point j = 0
  · omega
  · exact (L.points_lt _ (L.point_mem h) hzero).le

theorem itemOffset_le_limit (i : Nat) : itemOffset L.items i ≤ L.limit := by
  unfold limit
  rcases Nat.le_total i L.items.length with h | h
  · exact itemOffset_mono _ h
  · rw [itemOffset_of_le h, itemOffset_of_le (le_refl _)]

theorem drop_bytes (i : Nat) : (L.bytes.take L.limit).drop (itemOffset L.items i) =
    (L.items.drop i).flatMap Item.encode := by
  unfold bytes blockBytes limit
  rw [itemOffset_of_le (le_refl _), take_left, drop_itemOffset]

theorem decodeEntry_at {i : Nat} {x : Item} (hx : L.items[i]? = some x) :
    ∃ rest, decodeEntry ((L.bytes.take L.limit).drop (itemOffset L.items i)) =
        some (x.shared, x.key.length - x.shared, x.value.length, x.key.drop x.shared ++ (x.value ++ rest)) ∧
      itemOffset L.items (i + 1) + rest.length = L.limit := by
  have hmem : x ∈ L.items := mem_of_getElem? hx
  have hi : i < L.items.length := (List.getElem?_eq_some_iff.mp hx).1
  have hshared := L.shared_le x hmem
  have hkey := L.key_length x hmem
  have hsucc := itemOffset_succ hx
  have hlimit := L.itemOffset_le_limit (i + 1)
  have hlt := L.length_lt
  have hencode := x.length_encode
  have hdrop : L.items.drop i = x :: L.items.drop (i + 1) := by
    rw [drop_eq_getElem_cons hi]
    rw [getElem?_eq_getElem hi] at hx
    rw [Option.some.inj hx]
  have hrest : ((L.items.drop (i + 1)).flatMap Item.encode).length =
      L.limit - itemOffset L.items (i + 1) := by
    have hlen := congrArg List.length (drop_itemOffset L.items (i + 1))
    rw [length_drop] at hlen
    rw [← hlen, limit, itemOffset_of_le (le_refl _)]
  refine ⟨(L.items.drop (i + 1)).flatMap Item.encode, ?_, by omega⟩
  rw [L.drop_bytes, hdrop, flatMap_cons, Item.encode, encodeEntry, append_assoc,
    append_assoc]
  refine decodeEntry_header (by omega) (by omega) (by omega) ?_ ?_
  · rw [length_append, length_append, length_drop]
    omega
  · rw [length_append, length_append, length_drop]
    omega

theorem value_at {i : Nat} {x : Item} (hx : L.items[i]? = some x) :
    (L.bytes.drop (itemOffset L.items (i + 1) - x.value.length)).take x.value.length = x.value := by
  have hi : i < L.items.length := (List.getElem?_eq_some_iff.mp hx).1
  have hsucc := itemOffset_succ hx
  have hencode := x.length_encode
  have hitems : L.items.flatMap Item.encode = (L.items.take i).flatMap Item.encode ++
      (x.encode ++ (L.items.drop (i + 1)).flatMap Item.encode) := by
    rw [getElem?_eq_getElem hi] at hx
    conv_lhs => rw [← List.take_append_drop i L.items, drop_eq_getElem_cons hi,
      Option.some.inj hx, flatMap_append, flatMap_cons]
  have hsplit : L.bytes = ((L.items.take i).flatMap Item.encode ++
      (entryHeader x.shared (x.key.length - x.shared) x.value.length ++ x.key.drop x.shared)) ++
      (x.value ++ ((L.items.drop (i + 1)).flatMap Item.encode ++
        (L.points.flatMap (fun p => encodeFixed32 (UInt32.ofNat (itemOffset L.items p))) ++
          encodeFixed32 (UInt32.ofNat L.points.length)))) := by
    unfold bytes blockBytes
    rw [hitems, Item.encode, encodeEntry]
    simp only [append_assoc]
  rw [hsplit, drop_left', take_left]
  rw [length_append, length_append, length_drop]
  unfold itemOffset at hsucc ⊢
  omega

end BlockLayout

/-! ## What the builder writes -/

theorem sharedLength_spec (a b : Bytes) : sharedLength a b ≤ a.length ∧
    sharedLength a b ≤ b.length ∧ a.take (sharedLength a b) = b.take (sharedLength a b) := by
  induction a generalizing b with
  | nil => exact ⟨Nat.zero_le _, Nat.zero_le _, rfl⟩
  | cons x a ih =>
    cases b with
    | nil => exact ⟨Nat.zero_le _, Nat.zero_le _, rfl⟩
    | cons y b =>
      rw [sharedLength]
      split_ifs with heq
      · obtain ⟨ha, hb, htake⟩ := ih b
        rw [take_succ_cons, take_succ_cons, htake, heq]
        exact ⟨Nat.succ_le_succ ha, Nat.succ_le_succ hb, rfl⟩
      · exact ⟨Nat.zero_le _, Nat.zero_le _, rfl⟩

theorem getLast?_cases (items : List Item) :
    items = [] ∨ ∃ front x, items = front ++ [x] ∧ items[front.length]? = some x ∧
      items.getLast? = some x := by
  rcases eq_nil_or_concat items with rfl | ⟨front, x, rfl⟩
  · exact Or.inl rfl
  · rw [concat_eq_append]
    exact Or.inr ⟨front, x, rfl, by simp, by simp⟩

theorem itemOffset_append {items : List Item} {i : Nat} (h : i ≤ items.length) (more : List Item) :
    itemOffset (items ++ more) i = itemOffset items i := by
  unfold itemOffset
  rw [take_append_of_le_length h]

structure Written (items : List Item) (points : List Nat) (b : BlockBuilder) : Prop where
  buffer : b.buffer = items.flatMap Item.encode
  restarts : b.restarts = points.map fun p => itemOffset items p % 2 ^ 32
  lastKey : b.lastKey = items.getLast?.elim [] Item.key
  counter : items = [] → b.counter = 0
  key_length : ∀ x ∈ items, x.key.length ≤ b.buffer.length
  shared_le : ∀ x ∈ items, x.shared ≤ x.key.length
  chained : ∀ i x y, items[i]? = some x → items[i + 1]? = some y →
    y.shared ≤ x.key.length ∧ x.key.take y.shared = y.key.take y.shared
  point_zero : points.head? = some 0
  points_sorted : points.Pairwise (· < ·)
  points_lt : ∀ p ∈ points, p ≠ 0 → p < items.length
  restart : ∀ p ∈ points, ∀ x, items[p]? = some x → x.shared = 0

theorem written_init : Written [] [0] BlockBuilder.init where
  buffer := rfl
  restarts := rfl
  lastKey := rfl
  counter := fun _ => rfl
  key_length := by simp
  shared_le := by simp
  chained := by simp
  point_zero := rfl
  points_sorted := pairwise_singleton _ _
  points_lt := by simp
  restart := by simp

section Written

variable {items : List Item} {points : List Nat} {b : BlockBuilder}

theorem Written.snoc (h : Written items points b) {x : Item} {b' : BlockBuilder}
    {points' : List Nat} (hbuffer : b'.buffer = b.buffer ++ x.encode)
    (hpoints : points' = points ∧ b'.restarts = b.restarts ∨
      x.shared = 0 ∧ items ≠ [] ∧ points' = points ++ [items.length] ∧
        b'.restarts = b.restarts ++ [b.buffer.length % 2 ^ 32])
    (hlast : b'.lastKey = x.key) (hprev : x.shared ≤ b.lastKey.length)
    (hshared : x.shared ≤ x.key.length)
    (htake : b.lastKey.take x.shared = x.key.take x.shared) :
    Written (items ++ [x]) points' b' := by
  have hlen : (items ++ [x]).length = items.length + 1 := by simp
  have hbuffer_len : b'.buffer.length = b.buffer.length + x.encode.length := by
    rw [hbuffer, length_append]
  have hrestarts : b'.restarts = points'.map fun p => itemOffset (items ++ [x]) p % 2 ^ 32 := by
    have hold : points.map (fun p => itemOffset (items ++ [x]) p % 2 ^ 32) =
        points.map fun p => itemOffset items p % 2 ^ 32 := by
      refine map_congr_left fun p hp => ?_
      have hle : p ≤ items.length := by
        by_cases hzero : p = 0
        · omega
        · exact (h.points_lt p hp hzero).le
      rw [itemOffset_append hle]
    obtain ⟨rfl, heq⟩ | ⟨-, -, rfl, heq⟩ := hpoints
    · rw [heq, hold, h.restarts]
    · rw [heq, map_append, hold, h.restarts, map_singleton, itemOffset_append (le_refl _),
        itemOffset_of_le (le_refl _), h.buffer]
  have hmem : ∀ p ∈ points', p ∈ points ∨ p = items.length ∧ x.shared = 0 ∧ items ≠ [] := by
    intro p hp
    obtain ⟨rfl, -⟩ | ⟨hzero, hne, rfl, -⟩ := hpoints
    · exact Or.inl hp
    · obtain hp | hp := mem_append.mp hp
      · exact Or.inl hp
      · exact Or.inr ⟨mem_singleton.mp hp, hzero, hne⟩
  refine ⟨?_, hrestarts, ?_, ?_, ?_, ?_, ?_, ?_, ?_, ?_, ?_⟩
  · rw [hbuffer, h.buffer, flatMap_append, flatMap_singleton]
  · rw [hlast, getLast?_concat]
    rfl
  · intro hnil
    exact absurd hnil (by simp)
  · intro y hy
    obtain hy | hy := mem_append.mp hy
    · have := h.key_length y hy
      omega
    · rw [mem_singleton.mp hy]
      have hencode := x.length_encode
      have hbefore : b.lastKey.length ≤ b.buffer.length := by
        rw [h.lastKey]
        obtain rfl | ⟨front, z, -, hz, hlast⟩ := getLast?_cases items
        · exact Nat.zero_le _
        · rw [hlast]
          exact h.key_length z (mem_of_getElem? hz)
      omega
  · intro y hy
    obtain hy | hy := mem_append.mp hy
    · exact h.shared_le y hy
    · rw [mem_singleton.mp hy]
      exact hshared
  · intro i y z hy hz
    have hi : i + 1 < items.length + 1 := hlen ▸ (List.getElem?_eq_some_iff.mp hz).1
    rw [getElem?_append_left (by omega)] at hy
    rcases Nat.lt_or_ge (i + 1) items.length with hlt | hge
    · rw [getElem?_append_left hlt] at hz
      exact h.chained i y z hy hz
    · rw [getElem?_append_right hge, show i + 1 - items.length = 0 by omega] at hz
      obtain rfl : x = z := Option.some.inj hz
      have hlastKey : b.lastKey = y.key := by
        rw [h.lastKey, getLast?_eq_getElem?, show items.length - 1 = i by omega, hy]
        rfl
      rw [← hlastKey]
      exact ⟨hprev, htake⟩
  · obtain ⟨rfl, -⟩ | ⟨-, -, rfl, -⟩ := hpoints
    · exact h.point_zero
    · rw [head?_append, h.point_zero]
      rfl
  · obtain ⟨rfl, -⟩ | ⟨-, hne, rfl, -⟩ := hpoints
    · exact h.points_sorted
    · refine pairwise_append.mpr ⟨h.points_sorted, pairwise_singleton _ _, ?_⟩
      intro p hp q hq
      rw [mem_singleton.mp hq]
      by_cases hzero : p = 0
      · rw [hzero]
        exact length_pos_of_ne_nil hne
      · exact h.points_lt p hp hzero
  · intro p hp hzero
    obtain hp | ⟨rfl, -⟩ := hmem p hp
    · have := h.points_lt p hp hzero
      omega
    · omega
  · intro p hp y hy
    obtain hp | ⟨rfl, hx, -⟩ := hmem p hp
    · rcases Nat.lt_or_ge p items.length with hlt | hge
      · rw [getElem?_append_left hlt] at hy
        exact h.restart p hp y hy
      · -- the first item of the block
        have hzero : p = 0 := by
          by_contra hne
          exact absurd (h.points_lt p hp hne) (not_lt.mpr hge)
        have hnil : items = [] := eq_nil_of_length_eq_zero (by omega)
        subst hnil
        subst hzero
        obtain rfl : x = y := Option.some.inj hy
        have hlast : b.lastKey = [] := h.lastKey
        rw [hlast] at hprev
        exact Nat.le_zero.mp hprev
    · rw [getElem?_append_right (le_refl _), Nat.sub_self] at hy
      obtain rfl : x = y := Option.some.inj hy
      exact hx

theorem Written.add (h : Written items points b) {interval : Nat} (hinterval : 1 ≤ interval)
    (key value : Bytes) :
    ∃ shared points', Written (items ++ [⟨shared, key, value⟩]) points' (b.add interval key value) := by
  unfold BlockBuilder.add
  by_cases hcounter : b.counter < interval
  · rw [if_pos hcounter]
    dsimp only
    obtain ⟨hlast, hkey, htake⟩ := sharedLength_spec b.lastKey key
    refine ⟨_, points, h.snoc rfl (Or.inl ⟨rfl, rfl⟩) ?_ hlast hkey htake⟩
    dsimp only
    rw [htake, List.take_append_drop]
  · rw [if_neg hcounter]
    have hne : items ≠ [] := by
      intro hnil
      rw [h.counter hnil] at hcounter
      omega
    exact ⟨0, _, h.snoc rfl (Or.inr ⟨rfl, hne, rfl, rfl⟩) rfl (Nat.zero_le _) (Nat.zero_le _) rfl⟩

theorem Written.finish (h : Written items points b) : b.finish = blockBytes items points := by
  have hword : ∀ p, UInt32.ofNat (itemOffset items p % 2 ^ 32) =
      UInt32.ofNat (itemOffset items p) := by
    intro p
    refine UInt32.toNat_inj.mp ?_
    rw [UInt32.toNat_ofNat', UInt32.toNat_ofNat']
    exact Nat.mod_mod _ _
  unfold BlockBuilder.finish blockBytes
  rw [h.buffer, h.restarts, length_map, flatMap_map]
  simp only [hword]

end Written

theorem addAll_written {interval : Nat} (hinterval : 1 ≤ interval) (es : List (Bytes × Bytes)) :
    ∃ items points, Written items points (BlockBuilder.addAll interval es) ∧
      items.map Item.entry = es := by
  induction es using List.reverseRecOn with
  | nil => exact ⟨[], [0], written_init, rfl⟩
  | append_singleton es e ih =>
    obtain ⟨items, points, h, hentries⟩ := ih
    obtain ⟨shared, points', h'⟩ := h.add hinterval e.1 e.2
    unfold BlockBuilder.addAll at h' ⊢
    rw [foldl_append]
    refine ⟨_, points', h', ?_⟩
    rw [map_append, hentries]
    rfl

theorem build_layout {interval : Nat} (hinterval : 1 ≤ interval) {es : List (Bytes × Bytes)}
    (hsize : (BlockBuilder.addAll interval es).finish.length < 2 ^ 32) :
    ∃ L : BlockLayout, L.bytes = (BlockBuilder.addAll interval es).finish ∧ L.entries = es := by
  obtain ⟨items, points, h, hentries⟩ := addAll_written hinterval es
  have hbuffer : (BlockBuilder.addAll interval es).buffer.length < 2 ^ 32 := by
    refine lt_of_le_of_lt ?_ hsize
    unfold BlockBuilder.finish
    rw [length_append]
    omega
  refine ⟨⟨items, points, h.finish ▸ hsize, fun x hx => (h.key_length x hx).trans_lt hbuffer,
    h.shared_le, h.chained, h.point_zero, h.points_sorted, h.points_lt, h.restart⟩, ?_, hentries⟩
  exact h.finish.symm

/-! ## The iterator -/

namespace BlockLayout

variable {L : BlockLayout} {it : BlockIter} {i : Nat}

structure Over (L : BlockLayout) (it : BlockIter) : Prop where
  data : it.data = L.bytes
  restarts : it.restarts = L.limit
  numRestarts : it.numRestarts = L.points.length
  status : it.status = none

/-- `ParseNextKey` comes to item `i`, or to the end if there is none. -/
structure Ready (L : BlockLayout) (it : BlockIter) (i : Nat) : Prop extends Over L it where
  next : it.nextEntryOffset = itemOffset L.items i
  le : i ≤ L.items.length
  index : it.restartIndex < L.points.length ∧ L.point it.restartIndex ≤ i
  key : ∀ x, L.items[i]? = some x →
    x.shared ≤ it.key.length ∧ it.key.take x.shared = x.key.take x.shared

/-- The iterator is on item `i`. -/
structure At (L : BlockLayout) (it : BlockIter) (i : Nat) : Prop extends Over L it where
  item : ∃ x, L.items[i]? = some x ∧ it.key = x.key ∧ it.value = x.value
  current : it.current = itemOffset L.items i
  next : it.nextEntryOffset = itemOffset L.items (i + 1)
  index : it.restartIndex < L.points.length ∧ L.point it.restartIndex ≤ i
  index_next : it.restartIndex + 1 < L.points.length → i ≤ L.point (it.restartIndex + 1)

structure Ended (L : BlockLayout) (it : BlockIter) : Prop extends Over L it where
  current : it.current = L.limit

theorem Over.getRestartPoint (h : Over L it) {j : Nat} (hj : j < L.points.length) :
    it.getRestartPoint j = itemOffset L.items (L.point j) := by
  unfold BlockIter.getRestartPoint
  have hlt := L.length_lt
  have hle := L.itemOffset_le_limit (L.point j)
  have hdrop : it.data.drop (it.restarts + j * 4) =
      ((L.points.flatMap fun p => encodeFixed32 (UInt32.ofNat (itemOffset L.items p))) ++
        encodeFixed32 (UInt32.ofNat L.points.length)).drop (j * 4) := by
    rw [h.data, h.restarts, ← drop_drop]
    unfold bytes blockBytes limit
    rw [itemOffset_of_le (le_refl _), drop_left]
  rw [hdrop, drop_flatMap_encodeFixed32 _ (L.getElem?_points hj)]
  exact UInt32.toNat_ofNat_of_lt' (by show _ < 2 ^ 32; omega)

theorem Over.toEnd (h : Over L it) : Ended L it.toEnd :=
  ⟨⟨h.data, h.restarts, h.numRestarts, h.status⟩, h.restarts⟩

theorem Over.seekToRestartPoint (h : Over L it) {j : Nat} (hj : j < L.points.length) :
    Ready L (it.seekToRestartPoint j) (L.point j) where
  data := h.data
  restarts := h.restarts
  numRestarts := h.numRestarts
  status := h.status
  next := by
    have hlt := L.length_lt
    have hle := L.itemOffset_le_limit (L.point j)
    show (it.getRestartPoint j + 0) % 2 ^ 32 = _
    rw [h.getRestartPoint hj, Nat.add_zero, Nat.mod_eq_of_lt (by omega)]
  le := L.point_le hj
  index := ⟨hj, le_refl _⟩
  key := by
    intro x hx
    rw [L.restart _ (L.point_mem hj) x hx]
    exact ⟨Nat.zero_le _, rfl⟩

theorem passRestarts_spec (h : Over L it) (hcurrent : it.current = itemOffset L.items i)
    (hi : i < L.items.length) (turns : Nat) {r : Nat} (hr : r < L.points.length)
    (hri : L.point r ≤ i) (hturns : L.points.length ≤ turns + r + 1) :
    it.passRestarts turns r < L.points.length ∧ L.point (it.passRestarts turns r) ≤ i ∧
      (it.passRestarts turns r + 1 < L.points.length →
        i ≤ L.point (it.passRestarts turns r + 1)) := by
  induction turns generalizing r with
  | zero => exact ⟨hr, hri, fun hlt => absurd hlt (by rw [BlockIter.passRestarts]; omega)⟩
  | succ turns ih =>
    rw [BlockIter.passRestarts, h.numRestarts]
    by_cases hmore : r + 1 < L.points.length
    · rw [h.getRestartPoint hmore, hcurrent]
      by_cases hpass : itemOffset L.items (L.point (r + 1)) < itemOffset L.items i
      · have hlt : L.point (r + 1) < i := by
          by_contra hge
          exact absurd (itemOffset_mono L.items (not_lt.mp hge)) (not_le.mpr hpass)
        rw [if_pos ⟨hmore, hpass⟩]
        exact ih hmore hlt.le (by omega)
      · rw [if_neg fun hboth => hpass hboth.2]
        refine ⟨hr, hri, fun _ => ?_⟩
        by_contra hgt
        have hpoint : L.point (r + 1) < i := not_le.mp hgt
        exact hpass (itemOffset_lt hpoint (by omega))
    · rw [if_neg fun hboth => hmore hboth.1]
      exact ⟨hr, hri, fun hlt => absurd hlt hmore⟩

theorem Ready.parse (h : Ready L it i) (hi : i < L.items.length) :
    it.parseNextKey.1 = true ∧ At L it.parseNextKey.2 i := by
  obtain ⟨x, hx⟩ : ∃ x, L.items[i]? = some x := ⟨_, getElem?_eq_getElem hi⟩
  obtain ⟨rest, hdecode, hrest⟩ := L.decodeEntry_at hx
  obtain ⟨hshared, hpre⟩ := h.key x hx
  have hsucc := itemOffset_succ hx
  have hencode := x.length_encode
  have hle := L.shared_le x (mem_of_getElem? hx)
  have hlt := L.length_lt
  have hlimit := L.itemOffset_le_limit (i + 1)
  have hthree := x.three_le_encode
  have hkey : it.key.take x.shared ++
      (x.key.drop x.shared ++ (x.value ++ rest)).take (x.key.length - x.shared) = x.key := by
    rw [hpre, take_left' (by rw [length_drop]), List.take_append_drop]
  have hoffset : L.limit - (x.key.drop x.shared ++ (x.value ++ rest)).length +
      (x.key.length - x.shared) = itemOffset L.items (i + 1) - x.value.length := by
    rw [length_append, length_append, length_drop]
    omega
  have hparse : it.parseNextKey = (true, { it with
      current := itemOffset L.items i
      key := x.key
      valueOffset := itemOffset L.items (i + 1) - x.value.length
      valueLength := x.value.length
      restartIndex := BlockIter.passRestarts { it with current := itemOffset L.items i }
        it.numRestarts it.restartIndex }) := by
    unfold BlockIter.parseNextKey
    dsimp only
    rw [h.next, if_neg (by rw [h.restarts]; omega), h.data, h.restarts, hdecode]
    dsimp only
    rw [if_neg (not_lt.mpr hshared), hkey, hoffset]
  have hover : Over L { it with current := itemOffset L.items i } :=
    ⟨h.data, h.restarts, h.numRestarts, h.status⟩
  obtain ⟨hr, hri, hnext⟩ := passRestarts_spec hover rfl hi it.numRestarts h.index.1 h.index.2
    (by rw [h.numRestarts]; omega)
  rw [hparse]
  refine ⟨rfl, ⟨h.data, h.restarts, h.numRestarts, h.status⟩, ?_, rfl, ?_, ⟨hr, hri⟩, hnext⟩
  · refine ⟨x, hx, rfl, ?_⟩
    unfold BlockIter.value
    dsimp only
    rw [h.data, L.value_at hx]
  · unfold BlockIter.nextEntryOffset
    dsimp only
    rw [Nat.sub_add_cancel (by omega), Nat.mod_eq_of_lt (by omega)]

theorem Ready.parse_end (h : Ready L it i) (hi : L.items.length ≤ i) :
    it.parseNextKey.1 = false ∧ Ended L it.parseNextKey.2 := by
  have hover : Over L { it with current := it.nextEntryOffset } :=
    ⟨h.data, h.restarts, h.numRestarts, h.status⟩
  have hparse : it.parseNextKey =
      (false, BlockIter.toEnd { it with current := it.nextEntryOffset }) := by
    unfold BlockIter.parseNextKey
    dsimp only
    rw [if_pos]
    rw [h.restarts, h.next, itemOffset_of_le hi, limit, itemOffset_of_le (le_refl _)]
  rw [hparse]
  exact ⟨rfl, hover.toEnd⟩

theorem At.lt (h : At L it i) : i < L.items.length := by
  obtain ⟨x, hx, -⟩ := h.item
  exact (List.getElem?_eq_some_iff.mp hx).1

theorem At.ready (h : At L it i) : Ready L it (i + 1) where
  toOver := h.toOver
  next := h.next
  le := h.lt
  index := ⟨h.index.1, h.index.2.trans (Nat.le_succ i)⟩
  key := by
    intro y hy
    obtain ⟨x, hx, hkey, -⟩ := h.item
    rw [hkey]
    exact L.chained i x y hx hy

theorem At.valid (h : At L it i) : it.valid = true := by
  unfold BlockIter.valid
  rw [h.current, h.restarts, decide_eq_true_iff]
  exact itemOffset_lt h.lt h.lt

theorem Ended.not_valid (h : Ended L it) : it.valid = false := by
  unfold BlockIter.valid
  rw [h.current, h.restarts, decide_eq_false_iff_not]
  exact lt_irrefl _

/-- The iterator is where the cursor with number `i` is. -/
def Reaches (L : BlockLayout) (it : BlockIter) (i : Nat) : Prop :=
  if i < L.items.length then At L it i else Ended L it

theorem At.reaches (h : At L it i) : Reaches L it i := by
  unfold Reaches
  rwa [if_pos h.lt]

theorem Ended.reaches (h : Ended L it) (hi : L.items.length ≤ i) : Reaches L it i := by
  unfold Reaches
  rwa [if_neg (not_lt.mpr hi)]

theorem Ready.reaches (h : Ready L it i) : Reaches L it.parseNextKey.2 i := by
  rcases Nat.lt_or_ge i L.items.length with hi | hi
  · exact (h.parse hi).2.reaches
  · exact (h.parse_end hi).2.reaches hi

theorem Over.seekToFirst (h : Over L it) : Reaches L it.seekToFirst 0 := by
  have hready := h.seekToRestartPoint L.points_pos
  rw [L.point_first] at hready
  exact hready.reaches

theorem Ready.scanTo {j turns : Nat} (h : Ready L it i) (hij : i ≤ j) (hj : j < L.items.length)
    (hturns : j < i + turns) :
    At L (BlockIter.scanTo (itemOffset L.items (j + 1)) turns it) j := by
  induction turns generalizing it i with
  | zero => omega
  | succ turns ih =>
    obtain ⟨htrue, hat⟩ := h.parse (by omega)
    rw [BlockIter.scanTo]
    generalize it.parseNextKey = result at htrue hat
    obtain ⟨more, it'⟩ := result
    obtain rfl : more = true := htrue
    dsimp only at hat ⊢
    rw [hat.next]
    rcases Nat.eq_or_lt_of_le hij with rfl | hlt
    · rwa [if_neg (lt_irrefl _)]
    · rw [if_pos (itemOffset_lt (by omega) (by omega))]
      exact ih hat.ready hlt (by omega)

theorem items_le_limit : L.items.length ≤ L.limit := by
  unfold limit
  rw [itemOffset_of_le (le_refl _)]
  exact length_le_flatMap_encode L.items

theorem Over.seekToLast (h : Over L it) : Reaches L it.seekToLast (L.items.length - 1) := by
  have hpos := L.points_pos
  have hready := h.seekToRestartPoint (j := L.points.length - 1) (by omega)
  have hle := L.point_le (j := L.points.length - 1) (by omega)
  unfold BlockIter.seekToLast
  rw [h.numRestarts]
  rcases Nat.eq_zero_or_pos L.items.length with hzero | hn
  · -- no items: the loop ends at once
    obtain ⟨hfalse, hended⟩ := hready.parse_end (by omega)
    rw [BlockIter.scanTo]
    generalize (it.seekToRestartPoint (L.points.length - 1)).parseNextKey = result at hfalse hended
    obtain ⟨more, it'⟩ := result
    obtain rfl : more = false := hfalse
    exact Ended.reaches hended (by omega)
  · have hlast : L.point (L.points.length - 1) ≤ L.items.length - 1 := by
      by_cases hp : L.point (L.points.length - 1) = 0
      · omega
      · have := L.points_lt _ (L.point_mem (by omega)) hp
        omega
    have hturns : L.items.length - 1 < L.point (L.points.length - 1) + (L.limit + 1) := by
      have := L.items_le_limit
      omega
    have hat := hready.scanTo hlast (by omega) hturns
    rw [Nat.sub_add_cancel hn] at hat
    rw [h.restarts]
    exact hat.reaches

theorem At.next_reaches (h : At L it i) : Reaches L it.next (i + 1) := h.ready.reaches

theorem restartBefore_spec (h : Over L it) (hi : i ≤ L.items.length) {r : Nat}
    (hr : r < L.points.length) (hri : L.point r ≤ i) :
    (i = 0 → it.restartBefore (itemOffset L.items i) r = none) ∧
    (0 < i → ∃ r', it.restartBefore (itemOffset L.items i) r = some r' ∧ r' < L.points.length ∧
      L.point r' < i) := by
  induction r with
  | zero =>
    rw [BlockIter.restartBefore, h.getRestartPoint hr, L.point_first]
    constructor
    · rintro rfl
      exact if_pos (le_refl _)
    · intro hpos
      rw [if_neg (not_le.mpr (itemOffset_lt hpos (by omega)))]
      exact ⟨0, rfl, hr, by rw [L.point_first]; exact hpos⟩
  | succ r ih =>
    have hprev := L.point_lt_point (Nat.lt_add_one r) hr
    obtain ⟨hzero, hpos⟩ := ih (by omega) (by omega)
    rw [BlockIter.restartBefore, h.getRestartPoint hr]
    rcases Nat.eq_or_lt_of_le hri with heq | hlt
    · rw [heq, if_pos (le_refl _)]
      exact ⟨hzero, hpos⟩
    · grind

theorem At.prev_zero (h : At L it 0) : Ended L it.prev := by
  have hnone := (restartBefore_spec h.toOver (Nat.zero_le _) h.index.1 h.index.2).1 rfl
  unfold BlockIter.prev
  rw [h.current, hnone]
  exact h.toOver.toEnd

theorem At.prev_succ (h : At L it (i + 1)) : At L it.prev i := by
  have hlt := h.lt
  obtain ⟨r, hsome, hr, hri⟩ :=
    (restartBefore_spec h.toOver hlt.le h.index.1 h.index.2).2 (Nat.succ_pos i)
  unfold BlockIter.prev
  rw [h.current, hsome]
  dsimp only
  refine (h.toOver.seekToRestartPoint hr).scanTo (by omega) (by omega) ?_
  have := L.items_le_limit
  rw [h.restarts]
  omega

/-! ### Seeking -/

section Seek

variable {cmp : Bytes → Bytes → Ordering} {target : Bytes} {k : Nat}

/-- The items before number `k` are those before the target. -/
structure Cut (L : BlockLayout) (cmp : Bytes → Bytes → Ordering) (target : Bytes) (k : Nat) :
    Prop where
  le : k ≤ L.items.length
  lt_iff : ∀ j x, L.items[j]? = some x → (cmp x.key target = .lt ↔ j < k)
  eq : ∀ j x, L.items[j]? = some x → cmp x.key target = .eq → j = k

theorem Over.decode_restart (h : Over L it) {j : Nat} (hj : j < L.points.length)
    (hitem : L.point j < L.items.length) :
    ∃ x rest, L.items[L.point j]? = some x ∧
      decodeEntry ((it.data.take it.restarts).drop (it.getRestartPoint j)) =
        some (0, x.key.length, x.value.length, rest) ∧ rest.take x.key.length = x.key := by
  have hx : L.items[L.point j]? = some L.items[L.point j] := getElem?_eq_getElem hitem
  obtain ⟨rest, hdecode, -⟩ := L.decodeEntry_at hx
  have hshared := L.restart _ (L.point_mem hj) _ hx
  rw [hshared, Nat.sub_zero, drop_zero] at hdecode
  have hinput : (it.data.take it.restarts).drop (it.getRestartPoint j) =
      (L.bytes.take L.limit).drop (itemOffset L.items (L.point j)) := by
    rw [h.data, h.restarts, h.getRestartPoint hj]
  exact ⟨_, _, hx, (congrArg decodeEntry hinput).trans hdecode, take_left⟩

theorem findRestart_spec (h : Over L it) (hcut : Cut L cmp target k) (turns left right : Nat)
    (hle : left ≤ right) (hright : right < L.points.length)
    (hleft : left = 0 ∨ L.point left < k)
    (hafter : ∀ j, right < j → j < L.points.length → k ≤ L.point j)
    (hturns : right ≤ left + turns) :
    ∃ r, it.findRestart cmp target turns left right = some r ∧ r < L.points.length ∧
      (r = 0 ∨ L.point r < k) := by
  induction turns generalizing left right with
  | zero => exact ⟨left, rfl, by omega, hleft⟩
  | succ turns ih =>
    rw [BlockIter.findRestart]
    by_cases hlt : left < right
    · rw [if_pos hlt]
      dsimp only
      have hsmall := L.length_lt
      generalize hmid : (left + right + 1) % 2 ^ 32 / 2 = mid
      have hmid_lt : mid < L.points.length := by omega
      have hbelow : (mid + (2 ^ 32 - 1)) % 2 ^ 32 = mid - 1 := by omega
      have hne : L.point mid ≠ 0 := by
        have := L.point_lt_point (show 0 < mid by omega) hmid_lt
        omega
      obtain ⟨x, rest, hx, hdecode, hkey⟩ :=
        h.decode_restart hmid_lt (L.points_lt _ (L.point_mem hmid_lt) hne)
      rw [hdecode]
      dsimp only
      rw [if_neg (not_not.mpr rfl), hkey]
      have hcompare := hcut.lt_iff _ x hx
      by_cases hbefore : cmp x.key target = .lt
      · rw [if_pos hbefore]
        exact ih _ _ (by omega) hright (Or.inr (hcompare.mp hbefore)) hafter (by omega)
      · rw [if_neg hbefore, hbelow]
        have hge : k ≤ L.point mid := not_lt.mp fun hlt => hbefore (hcompare.mpr hlt)
        refine ih _ _ (by omega) (by omega) hleft ?_ (by omega)
        intro j hj hjlt
        exact hge.trans (L.point_le_point (by omega) hjlt)
    · rw [if_neg hlt]
      exact ⟨left, rfl, by omega, hleft⟩

theorem Ready.scanFor (hcut : Cut L cmp target k) {turns : Nat} (h : Ready L it i) (hik : i ≤ k)
    (hturns : k < i + turns) : Reaches L (BlockIter.scanFor cmp target turns it) k := by
  induction turns generalizing it i with
  | zero => omega
  | succ turns ih =>
    rw [BlockIter.scanFor]
    rcases Nat.lt_or_ge i L.items.length with hi | hi
    · obtain ⟨htrue, hat⟩ := h.parse hi
      generalize it.parseNextKey = result at htrue hat
      obtain ⟨more, it'⟩ := result
      obtain rfl : more = true := htrue
      dsimp only at hat ⊢
      obtain ⟨x, hx, hkey, -⟩ := hat.item
      have hcompare := hcut.lt_iff i x hx
      rw [hkey]
      by_cases hbefore : cmp x.key target = .lt
      · rw [if_pos hbefore]
        exact ih hat.ready (hcompare.mp hbefore) (by omega)
      · rw [if_neg hbefore]
        obtain rfl : i = k := le_antisymm hik (not_lt.mp fun hlt => hbefore (hcompare.mpr hlt))
        exact hat.reaches
    · obtain ⟨hfalse, hended⟩ := h.parse_end hi
      generalize it.parseNextKey = result at hfalse hended
      obtain ⟨more, it'⟩ := result
      obtain rfl : more = false := hfalse
      exact Ended.reaches hended (hi.trans hik)

theorem Over.scan_restart (h : Over L it) (hcut : Cut L cmp target k) {r : Nat}
    (hr : r < L.points.length) (hrk : r = 0 ∨ L.point r < k) :
    Reaches L (BlockIter.scanFor cmp target (it.restarts + 1) (it.seekToRestartPoint r)) k := by
  refine (h.seekToRestartPoint hr).scanFor hcut ?_ ?_
  · obtain rfl | hlt := hrk
    · rw [L.point_first]
      exact Nat.zero_le _
    · exact hlt.le
  · have hle := hcut.le
    have := L.items_le_limit
    rw [h.restarts]
    omega

theorem At.seek (h : At L it i) (hcut : Cut L cmp target k) :
    Reaches L (it.seek cmp target) k := by
  obtain ⟨x, hx, hkey, -⟩ := h.item
  have hpos := L.points_pos
  have hindex := h.index.1
  have hlt_iff := hcut.lt_iff i x hx
  unfold BlockIter.seek
  dsimp only
  rw [h.valid, if_pos rfl, hkey, h.numRestarts]
  cases hcompare : cmp x.key target with
  | eq =>
    rw [if_pos ⟨rfl, rfl⟩]
    obtain rfl := hcut.eq i x hx hcompare
    exact h.reaches
  | lt =>
    have hik : i < k := hlt_iff.mp hcompare
    rw [if_neg (by decide), if_pos rfl, if_neg (by decide)]
    obtain ⟨r, hfind, hr, hrk⟩ := findRestart_spec h.toOver hcut L.points.length
      it.restartIndex (L.points.length - 1) (by omega) (by omega)
      (Or.inr (by have := h.index.2; omega)) (by intro j; omega) (by omega)
    rw [hfind]
    dsimp only
    by_cases hskip : r = it.restartIndex
    · rw [if_pos ⟨hskip, rfl⟩]
      refine h.ready.scanFor hcut hik ?_
      have hle := hcut.le
      have := L.items_le_limit
      rw [h.restarts]
      omega
    · rw [if_neg fun hboth => hskip hboth.1]
      exact h.toOver.scan_restart hcut hr hrk
  | gt =>
    have hki : k ≤ i := not_lt.mp fun hlt => by
      rw [hlt_iff.mpr hlt] at hcompare
      cases hcompare
    rw [if_neg (by decide), if_neg (by decide), if_pos rfl]
    obtain ⟨r, hfind, hr, hrk⟩ := findRestart_spec h.toOver hcut L.points.length
      0 it.restartIndex (Nat.zero_le _) hindex (Or.inl rfl)
      (by
        intro j hj hjlt
        have hnext := h.index_next (by omega)
        exact hki.trans (hnext.trans (L.point_le_point hj hjlt)))
      (by omega)
    rw [hfind]
    dsimp only
    rw [if_neg fun hboth => by cases hboth.2]
    exact h.toOver.scan_restart hcut hr hrk

theorem Ended.seek (h : Ended L it) (hcut : Cut L cmp target k) :
    Reaches L (it.seek cmp target) k := by
  have hpos := L.points_pos
  unfold BlockIter.seek
  dsimp only
  rw [h.not_valid, if_neg Bool.false_ne_true, if_neg (by simp), if_neg (by decide),
    if_neg (by decide), h.numRestarts]
  obtain ⟨r, hfind, hr, hrk⟩ := findRestart_spec h.toOver hcut L.points.length
    0 (L.points.length - 1) (by omega) (by omega) (Or.inl rfl)
    (by intro j; omega) (by omega)
  rw [hfind]
  dsimp only
  rw [if_neg fun hboth => by cases hboth.2]
  exact h.toOver.scan_restart hcut hr hrk

end Seek

/-! ### The iterator as a whole -/

/-- The iterator is on entry `i`, or at the end if there is none. -/
def Tracks (L : BlockLayout) (it : Iter) (i : Nat) : Prop := ∃ b, it = .block b ∧ Reaches L b i

theorem newIterator_eq (L : BlockLayout) :
    (Block.new L.bytes).newIterator = .block (BlockIter.new L.bytes L.limit L.points.length) := by
  have hlen := L.length_bytes
  have hlt := L.length_lt
  have hpos := L.points_pos
  have hnum : Block.numRestarts L.bytes L.bytes.length = L.points.length := by
    unfold Block.numRestarts
    have hdrop : L.bytes.drop (L.bytes.length - 4) = encodeFixed32 (UInt32.ofNat L.points.length) := by
      have hsplit : L.bytes = (L.items.flatMap Item.encode ++
          L.points.flatMap fun p => encodeFixed32 (UInt32.ofNat (itemOffset L.items p))) ++
          encodeFixed32 (UInt32.ofNat L.points.length) := by
        unfold bytes blockBytes
        rw [append_assoc]
      conv_lhs => rw [hsplit]
      refine drop_left' ?_
      simp only [length_append, length_encodeFixed32, Nat.add_sub_cancel]
    have hread := decodeFixed32_encodeFixed32 (UInt32.ofNat L.points.length) []
    rw [append_nil] at hread
    rw [hdrop, hread]
    exact UInt32.toNat_ofNat_of_lt' (by show _ < 2 ^ 32; omega)
  have hnew : Block.new L.bytes = ⟨L.bytes, L.bytes.length, L.limit⟩ := by
    unfold Block.new
    dsimp only
    rw [hnum, if_neg (by omega), if_neg (by omega), Nat.mod_eq_of_lt (by omega)]
    congr 1
    rw [Nat.mod_eq_of_lt (by omega)]
    omega
  rw [hnew]
  unfold Block.newIterator
  dsimp only
  rw [hnum, if_neg (by omega), if_neg (by omega)]

theorem length_entries_le (L : BlockLayout) : L.entries.length ≤ L.bytes.length := by
  have hlen := length_le_flatMap_encode L.items
  unfold entries bytes blockBytes
  rw [length_map, length_append]
  omega

theorem tracks_new (L : BlockLayout) : Tracks L (Block.new L.bytes).newIterator L.entries.length := by
  refine ⟨_, L.newIterator_eq, Ended.reaches ⟨⟨rfl, rfl, rfl, rfl⟩, rfl⟩ ?_⟩
  unfold entries
  rw [length_map]

theorem Reaches.over (h : Reaches L it i) : Over L it := by
  unfold Reaches at h
  split_ifs at h
  · exact h.toOver
  · exact h.toOver

/-- **Block iterators** are faithful to the entries of the block. Only `Seek` needs them to be in
    order. -/
theorem faithful (L : BlockLayout) {κ : Type} [LinearOrder κ] {compare : Bytes → Bytes → Ordering}
    {rank : Bytes → κ} (hcmp : Compares compare rank) {wellFormed : Bytes → Prop}
    (hsorted : ∀ t, wellFormed t → SortedList.Strict (fun e => rank e.1) L.entries) :
    (Iter.machine compare).Faithful (fun e => rank e.1) rank wellFormed L.entries (Tracks L) where
  current := by
    rintro _ i ⟨b, rfl, h⟩
    show (if b.valid then some (b.key, b.value) else none) = _
    unfold entries
    rw [getElem?_map]
    unfold Reaches at h
    split_ifs at h with hi
    · obtain ⟨x, hx, hkey, hvalue⟩ := h.item
      rw [h.valid, if_pos rfl, hx, hkey, hvalue]
      rfl
    · rw [h.not_valid, if_neg Bool.false_ne_true, getElem?_eq_none (not_lt.mp hi)]
      rfl
  error := by
    rintro _ i ⟨b, rfl, h⟩
    exact h.over.status
  seekToFirst := by
    rintro _ i ⟨b, rfl, h⟩
    exact ⟨_, rfl, h.over.seekToFirst⟩
  seekToLast := by
    rintro _ i ⟨b, rfl, h⟩
    refine ⟨_, rfl, ?_⟩
    unfold entries
    rw [length_map]
    exact h.over.seekToLast
  seek := by
    rintro _ i t k ⟨b, rfl, h⟩ ht hk
    have hentry : ∀ (j : Nat) (x : Item), L.items[j]? = some x → L.entries[j]? = some x.entry := by
      intro j x hx
      unfold entries
      rw [getElem?_map, hx]
      rfl
    have hcut : Cut L compare t k := by
      refine ⟨by simpa [entries] using hk.le, ?_, ?_⟩
      · intro j x hx
        rw [hcmp.lt_iff]
        constructor
        · intro hlt
          by_contra hge
          exact absurd (hk.ge j _ (hentry j x hx) (not_lt.mp hge)) (not_le.mpr hlt)
        · exact hk.lt j _ (hentry j x hx)
      · intro j x hx heq
        rw [hcmp.eq_iff] at heq
        have hjx := hentry j x hx
        rcases lt_trichotomy j k with hlt | heq' | hgt
        · exact absurd heq (hk.lt j _ hjx hlt).ne
        · exact heq'
        · -- an entry before `x` would be before the target
          have hj : j < L.entries.length := (List.getElem?_eq_some_iff.mp hjx).1
          have hklt : k < L.entries.length := by omega
          have hge := hk.ge k _ (getElem?_eq_getElem hklt) (le_refl _)
          have hlt := pairwise_iff_getElem.mp (hsorted t ht) k j hklt hj hgt
          rw [getElem?_eq_getElem hj] at hjx
          rw [Option.some.inj hjx] at hlt
          exact absurd (hge.trans_lt hlt) (by rw [← heq]; exact lt_irrefl _)
    refine ⟨_, rfl, ?_⟩
    unfold Reaches at h
    split_ifs at h
    · exact h.seek hcut
    · exact h.seek hcut
  next := by
    rintro _ i ⟨b, rfl, h⟩ hi
    unfold entries at hi
    rw [length_map] at hi
    unfold Reaches at h
    rw [if_pos hi] at h
    exact ⟨_, rfl, h.next_reaches⟩
  prev_zero := by
    rintro _ ⟨b, rfl, h⟩ hpos
    unfold entries at hpos ⊢
    rw [length_map] at hpos ⊢
    unfold Reaches at h
    rw [if_pos hpos] at h
    exact ⟨_, rfl, h.prev_zero.reaches (le_refl _)⟩
  prev_succ := by
    rintro _ i ⟨b, rfl, h⟩ hi
    unfold entries at hi
    rw [length_map] at hi
    unfold Reaches at h
    rw [if_pos hi] at h
    exact ⟨_, rfl, h.prev_succ.reaches⟩

end BlockLayout

end LevelDB
