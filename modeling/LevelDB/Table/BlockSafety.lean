/-
  Block iterators on arbitrary bytes (`table/block.cc`).

  The calls once more, with faults in sight: `Fault.outOfBounds` is a read, or a key fragment or
  value that is handed out, beyond the bytes it belongs to, and `Fault.noReturn` a loop that does
  not end in time.

  `DecodeEntry` adds the two lengths of an entry as `uint32_t`, and `Seek` the two ends of its
  search.
-/
import LevelDB.Table.Block

namespace LevelDB

open List Option Cursor

/-! ## Reads -/

inductive Fault where
  | outOfBounds
  | noReturn
  deriving DecidableEq, Repr

def readByte (data : Bytes) (p : Nat) : Except Fault UInt8 :=
  match data[p]? with
  | some b => .ok b
  | none => .error .outOfBounds

/-- Bytes that are read or handed out; they belong before `limit`. -/
def view (data : Bytes) (limit p n : Nat) : Except Fault Bytes :=
  if p + n ≤ limit ∧ limit ≤ data.length then .ok ((data.drop p).take n) else .error .outOfBounds

/-- `GetVarint32PtrFallback`: the number and the place after it. -/
def tryVarintLoop (data : Bytes) (limit : Nat) : Nat → Nat → Nat → Nat → Except Fault (Option (Nat × Nat))
  | 0, _, _, _ => .ok none
  | turns + 1, shift, result, p =>
    if p < limit then do
      let b ← readByte data p
      if b.toNat &&& 128 ≠ 0 then
        tryVarintLoop data limit turns (shift + 7)
          (result ||| ((b.toNat &&& 127) <<< shift) % 2 ^ 32) (p + 1)
      else .ok (some (result ||| (b.toNat <<< shift) % 2 ^ 32, p + 1))
    else .ok none

/-- `GetVarint32Ptr`. -/
def tryVarint32Ptr (data : Bytes) (limit p : Nat) : Except Fault (Option (Nat × Nat)) :=
  if p < limit then do
    let b ← readByte data p
    if b.toNat &&& 128 = 0 then .ok (some (b.toNat, p + 1)) else tryVarintLoop data limit 5 0 0 p
  else tryVarintLoop data limit 5 0 0 p

def tryEntryHeader (data : Bytes) (limit p : Nat) :
    Except Fault (Option (Nat × Nat × Nat × Nat)) := do
  let some (shared, p) ← tryVarint32Ptr data limit p | return none
  let some (nonShared, p) ← tryVarint32Ptr data limit p | return none
  let some (valueLength, p) ← tryVarint32Ptr data limit p | return none
  return some (shared, nonShared, valueLength, p)

def tryHeader (data : Bytes) (limit p : Nat) : Except Fault (Option (Nat × Nat × Nat × Nat)) :=
  if limit < p + 3 then .ok none
  else do
    let a ← readByte data p
    let b ← readByte data (p + 1)
    let c ← readByte data (p + 2)
    if a.toNat ||| b.toNat ||| c.toNat < 128 then .ok (some (a.toNat, b.toNat, c.toNat, p + 3))
    else tryEntryHeader data limit p

/-- `DecodeEntry`. -/
def tryDecodeEntry (data : Bytes) (limit p : Nat) :
    Except Fault (Option (Nat × Nat × Nat × Nat)) := do
  let header ← tryHeader data limit p
  return header.bind fun (shared, nonShared, valueLength, p) =>
    if (limit - p) % 2 ^ 32 < (nonShared + valueLength) % 2 ^ 32 then none
    else some (shared, nonShared, valueLength, p)

/-! ## Calls -/

namespace BlockIter

/-- `GetRestartPoint`. -/
def tryGetRestartPoint (it : BlockIter) (index : Nat) : Except Fault Nat := do
  let _ ← view it.data it.data.length (it.restarts + index * 4) 4
  return it.getRestartPoint index

/-- `SeekToRestartPoint`. -/
def trySeekToRestartPoint (it : BlockIter) (index : Nat) : Except Fault BlockIter := do
  let _ ← it.tryGetRestartPoint index
  return it.seekToRestartPoint index

/-- The loop at the end of `ParseNextKey`. -/
def tryPassRestarts (it : BlockIter) : Nat → Nat → Except Fault Nat
  | 0, _ => .error .noReturn
  | turns + 1, r =>
    if r + 1 < it.numRestarts then do
      let point ← it.tryGetRestartPoint (r + 1)
      if point < it.current then it.tryPassRestarts turns (r + 1) else return r
    else return r

/-- `ParseNextKey`. -/
def tryParseNextKey (it : BlockIter) : Except Fault (Bool × BlockIter) := do
  let it := { it with current := it.nextEntryOffset }
  if it.restarts ≤ it.current then return (false, it.toEnd)
  let some (shared, nonShared, valueLength, p) ← tryDecodeEntry it.data it.restarts it.current
    | return (false, it.corruptionError)
  if it.key.length < shared then return (false, it.corruptionError)
  let fragment ← view it.data it.restarts p nonShared
  let _ ← view it.data it.restarts (p + nonShared) valueLength
  let restartIndex ← it.tryPassRestarts it.numRestarts it.restartIndex
  return (true, { it with
    key := it.key.take shared ++ fragment
    valueOffset := p + nonShared
    valueLength := valueLength
    restartIndex := restartIndex })

/-- The loops over entries, as long as `goesOn`. -/
def tryScan (goesOn : BlockIter → Bool) : Nat → BlockIter → Except Fault BlockIter
  | 0, _ => .error .noReturn
  | turns + 1, it => do
    let (more, it) ← it.tryParseNextKey
    if more && goesOn it then tryScan goesOn turns it else return it

/-- The loops of `SeekToLast` and `Prev`: the next entry starts before `limit`. -/
def tryScanTo (limit : Nat) : Nat → BlockIter → Except Fault BlockIter :=
  tryScan fun it => decide (it.nextEntryOffset < limit)

/-- `Next`. -/
def tryNext (it : BlockIter) : Except Fault BlockIter := Prod.snd <$> it.tryParseNextKey

/-- `SeekToFirst`. -/
def trySeekToFirst (it : BlockIter) : Except Fault BlockIter := do
  let it ← it.trySeekToRestartPoint 0
  it.tryNext

/-- `SeekToLast`. -/
def trySeekToLast (it : BlockIter) : Except Fault BlockIter := do
  let it ← it.trySeekToRestartPoint (it.numRestarts - 1)
  tryScanTo it.restarts (it.restarts + 1) it

/-- The loop of `Prev` over the restart points. -/
def tryRestartBefore (it : BlockIter) (original : Nat) : Nat → Except Fault (Option Nat)
  | 0 => do
    let point ← it.tryGetRestartPoint 0
    return if original ≤ point then none else some 0
  | r + 1 => do
    let point ← it.tryGetRestartPoint (r + 1)
    if original ≤ point then it.tryRestartBefore original r else return some (r + 1)

/-- `Prev`. -/
def tryPrev (it : BlockIter) : Except Fault BlockIter := do
  let some r ← it.tryRestartBefore it.current it.restartIndex | return it.toEnd
  let started ← it.trySeekToRestartPoint r
  tryScanTo it.current (it.restarts + 1) started

section Seek

variable (cmp : Bytes → Bytes → Ordering) (target : Bytes)

/-- The binary search of `Seek`. -/
def tryFindRestart (it : BlockIter) : Nat → Nat → Nat → Except Fault (Option Nat)
  | 0, left, right => if left < right then .error .noReturn else return some left
  | turns + 1, left, right => do
    if left < right then
      let mid := (left + right + 1) % 2 ^ 32 / 2
      let regionOffset ← it.tryGetRestartPoint mid
      let some (shared, nonShared, _, p) ← tryDecodeEntry it.data it.restarts regionOffset
        | return none
      if shared ≠ 0 then return none
      let midKey ← view it.data it.restarts p nonShared
      if cmp midKey target = .lt then it.tryFindRestart turns mid right
      else it.tryFindRestart turns left ((mid + (2 ^ 32 - 1)) % 2 ^ 32)
    else return some left

/-- The linear search of `Seek`. -/
def tryScanFor : Nat → BlockIter → Except Fault BlockIter :=
  tryScan fun it => decide (cmp it.key target = .lt)

/-- `Seek`. -/
def trySeek (it : BlockIter) : Except Fault BlockIter := do
  let compared := if it.valid then cmp it.key target else .eq
  if it.valid ∧ compared = .eq then return it
  let left := if compared = .lt then it.restartIndex else 0
  let right := if compared = .gt then it.restartIndex else it.numRestarts - 1
  let some left ← it.tryFindRestart cmp target it.numRestarts left right
    | return it.corruptionError
  let started ←
    if left = it.restartIndex ∧ compared = .lt then pure it else it.trySeekToRestartPoint left
  tryScanFor cmp target (it.restarts + 1) started

end Seek

end BlockIter

namespace Iter

def tryMap (f : BlockIter → Except Fault BlockIter) : Iter → Except Fault Iter
  | block it => block <$> f it
  | empty status => .ok (empty status)

/-- One call; `none` when the call is not allowed. -/
def tryStep (cmp : Bytes → Bytes → Ordering) (it : Iter) : Call Bytes → Except Fault (Option Iter)
  | .seekToFirst => some <$> it.tryMap BlockIter.trySeekToFirst
  | .seekToLast => some <$> it.tryMap BlockIter.trySeekToLast
  | .seek target => some <$> it.tryMap (BlockIter.trySeek cmp target)
  | .next => if it.current.isSome then some <$> it.tryMap BlockIter.tryNext else .ok none
  | .prev => if it.current.isSome then some <$> it.tryMap BlockIter.tryPrev else .ok none

def tryRun (cmp : Bytes → Bytes → Ordering) : Iter → List (Call Bytes) → Except Fault (Option Iter)
  | it, [] => .ok (some it)
  | it, call :: calls => do
    let some it ← it.tryStep cmp call | return none
    tryRun cmp it calls

end Iter

/-! ## Reads that do not fail -/

section Reads

variable {data : Bytes} {limit p : Nat}

theorem drop_eq_cons (hlimit : limit ≤ data.length) (hp : p < limit) :
    ∃ b, readByte data p = .ok b ∧ (data.take limit).drop p = b :: (data.take limit).drop (p + 1) := by
  have hlen : p < data.length := hp.trans_le hlimit
  refine ⟨data[p], ?_, ?_⟩
  · rw [readByte, getElem?_eq_getElem hlen]
  · simp_all [length_take, drop_eq_getElem_cons, getElem_take]

theorem drop_eq_nil (hp : limit ≤ p) : (data.take limit).drop p = [] := by
  refine drop_eq_nil_iff.mpr ?_
  rw [length_take]
  omega

def AtPlace (data : Bytes) (limit p : Nat) (r : Option (Nat × Nat)) (l : Option (Nat × Bytes)) : Prop :=
  match r with
  | none => l = none
  | some (v, q) => l = some (v, (data.take limit).drop q) ∧ p < q ∧ q ≤ limit

theorem AtPlace.mono {r : Option (Nat × Nat)} {l : Option (Nat × Bytes)} {p' : Nat}
    (h : AtPlace data limit p' r l) (hp : p ≤ p') : AtPlace data limit p r l := by
  match r, h with
  | none, h => exact h
  | some (v, q), ⟨heq, hlt, hle⟩ => exact ⟨heq, by omega, hle⟩

theorem tryVarintLoop_spec (hlimit : limit ≤ data.length) {turns shift result : Nat} :
    ∃ r, tryVarintLoop data limit turns shift result p = .ok r ∧
      AtPlace data limit p r (getVarintLoop 32 turns shift result ((data.take limit).drop p)) := by
  induction turns generalizing shift result p with
  | zero => exact ⟨none, rfl, rfl⟩
  | succ turns ih =>
    rw [tryVarintLoop]
    by_cases hp : p < limit
    · obtain ⟨b, hread, hdrop⟩ := drop_eq_cons hlimit hp
      rw [if_pos hp, hread, hdrop, getVarintLoop]
      show ∃ r, (if b.toNat &&& 128 ≠ 0 then _ else _) = _ ∧ _
      split_ifs
      · obtain ⟨r, htry, hplace⟩ := ih (p := p + 1)
        exact ⟨r, htry, hplace.mono (Nat.le_succ p)⟩
      · exact ⟨_, rfl, rfl, Nat.lt_succ_self p, hp⟩
    · rw [if_neg hp, drop_eq_nil (not_lt.mp hp)]
      exact ⟨none, rfl, rfl⟩

theorem tryVarint32Ptr_spec (hlimit : limit ≤ data.length) :
    ∃ r, tryVarint32Ptr data limit p = .ok r ∧
      AtPlace data limit p r (getVarint32 ((data.take limit).drop p)) := by
  have hloop : ∃ r, tryVarintLoop data limit 5 0 0 p = .ok r ∧
      AtPlace data limit p r (getVarintLoop 32 5 0 0 ((data.take limit).drop p)) :=
    tryVarintLoop_spec hlimit
  unfold tryVarint32Ptr
  by_cases hp : p < limit
  · obtain ⟨b, hread, hdrop⟩ := drop_eq_cons hlimit hp
    rw [if_pos hp, hread, hdrop, getVarint32]
    show ∃ r, (if b.toNat &&& 128 = 0 then _ else _) = _ ∧ _
    split_ifs
    · exact ⟨_, rfl, rfl, Nat.lt_succ_self p, hp⟩
    · rwa [hdrop] at hloop
  · rw [if_neg hp, drop_eq_nil (not_lt.mp hp)]
    rwa [drop_eq_nil (not_lt.mp hp)] at hloop

def AfterHeader (data : Bytes) (limit p : Nat) (r : Option (Nat × Nat × Nat × Nat))
    (l : Option (Nat × Nat × Nat × Bytes)) : Prop :=
  match r with
  | none => l = none
  | some (a, b, c, q) => l = some (a, b, c, (data.take limit).drop q) ∧ p + 3 ≤ q ∧ q ≤ limit

theorem tryEntryHeader_spec (hlimit : limit ≤ data.length) :
    ∃ r, tryEntryHeader data limit p = .ok r ∧
      AfterHeader data limit p r (getEntryHeader ((data.take limit).drop p)) := by
  unfold tryEntryHeader getEntryHeader
  obtain ⟨r₁, htry₁, h₁⟩ := tryVarint32Ptr_spec (p := p) hlimit
  rw [htry₁]
  match r₁, h₁ with
  | none, h₁ =>
    rw [h₁]
    exact ⟨none, rfl, rfl⟩
  | some (a, p₁), ⟨h₁, hlt₁, hle₁⟩ =>
    rw [h₁]
    obtain ⟨r₂, htry₂, h₂⟩ := tryVarint32Ptr_spec (p := p₁) hlimit
    simp only [bind, bind_some, Except.bind]
    rw [htry₂]
    match r₂, h₂ with
    | none, h₂ =>
      rw [h₂]
      exact ⟨none, rfl, rfl⟩
    | some (b, p₂), ⟨h₂, hlt₂, hle₂⟩ =>
      rw [h₂]
      obtain ⟨r₃, htry₃, h₃⟩ := tryVarint32Ptr_spec (p := p₂) hlimit
      simp only [bind_some]
      rw [htry₃]
      match r₃, h₃ with
      | none, h₃ =>
        rw [h₃]
        exact ⟨none, rfl, rfl⟩
      | some (c, p₃), ⟨h₃, hlt₃, hle₃⟩ =>
        rw [h₃]
        exact ⟨_, rfl, rfl, by omega, hle₃⟩

theorem decodeEntry_short {input : Bytes} (h : input.length < 3) : decodeEntry input = none := by
  match input, h with
  | [], _ => rfl
  | [_], _ => rfl
  | [_, _], _ => rfl

theorem tryDecodeEntry_spec (hlimit : limit ≤ data.length) :
    ∃ r, tryDecodeEntry data limit p = .ok r ∧
      AfterHeader data limit p r (decodeEntry ((data.take limit).drop p)) := by
  have hlength : ∀ q, ((data.take limit).drop q).length = limit - q := by
    intro q
    rw [length_drop, length_take, Nat.min_eq_left hlimit]
  by_cases hshort : limit < p + 3
  · rw [tryDecodeEntry, tryHeader, if_pos hshort, decodeEntry_short (by rw [hlength]; omega)]
    exact ⟨none, rfl, rfl⟩
  · obtain ⟨a, ha, hdrop⟩ := drop_eq_cons hlimit (show p < limit by omega)
    obtain ⟨b, hb, hdrop₁⟩ := drop_eq_cons hlimit (show p + 1 < limit by omega)
    obtain ⟨c, hc, hdrop₂⟩ := drop_eq_cons hlimit (show p + 2 < limit by omega)
    have hdecode : decodeEntry ((data.take limit).drop p) =
        (if a.toNat ||| b.toNat ||| c.toNat < 128 then
          some (a.toNat, b.toNat, c.toNat, (data.take limit).drop (p + 3))
        else getEntryHeader ((data.take limit).drop p)).bind
          fun r => if r.2.2.2.length % 2 ^ 32 < (r.2.1 + r.2.2.1) % 2 ^ 32 then none else some r := by
      rw [hdrop, hdrop₁, hdrop₂]
      rfl
    have hheader : ∃ r, tryHeader data limit p = .ok r ∧
        AfterHeader data limit p r (if a.toNat ||| b.toNat ||| c.toNat < 128 then
          some (a.toNat, b.toNat, c.toNat, (data.take limit).drop (p + 3))
        else getEntryHeader ((data.take limit).drop p)) := by
      rw [tryHeader, if_neg hshort, ha, hb, hc]
      show ∃ r, (if a.toNat ||| b.toNat ||| c.toNat < 128 then _ else _) = _ ∧ _
      split_ifs
      · exact ⟨_, rfl, rfl, le_refl _, not_lt.mp hshort⟩
      · exact tryEntryHeader_spec hlimit
    obtain ⟨r, htry, hafter⟩ := hheader
    rw [tryDecodeEntry, htry, hdecode]
    refine ⟨_, rfl, ?_⟩
    rcases r with - | ⟨shared, nonShared, valueLength, q⟩
    · rw [show _ = none from hafter]
      rfl
    · obtain ⟨hafter, hle, hlimit⟩ := hafter
      rw [hafter, bind_some, bind_some]
      dsimp only
      rw [hlength]
      split_ifs
      · rfl
      · exact ⟨rfl, hle, hlimit⟩

end Reads

/-! ## Entries that can be reached -/

namespace BlockIter

/-- The offsets that an iterator over the block can come to: the restart points, and what follows
    an entry. -/
inductive Reachable (b : BlockIter) : Nat → Prop
  | restart {i : Nat} : i < b.numRestarts → Reachable b (b.getRestartPoint i)
  | next {o shared nonShared valueLength : Nat} {rest : Bytes} : Reachable b o →
      decodeEntry ((b.data.take b.restarts).drop o) = some (shared, nonShared, valueLength, rest) →
      Reachable b (b.restarts - rest.length + (nonShared + valueLength))

/-- There are at most 2^31 restart points, and the lengths of an entry have a sum below 2^32. -/
structure LengthsFit (b : BlockIter) : Prop where
  restarts : b.numRestarts ≤ 2 ^ 31
  entry : ∀ {o shared nonShared valueLength rest}, Reachable b o →
    decodeEntry ((b.data.take b.restarts).drop o) = some (shared, nonShared, valueLength, rest) →
    nonShared + valueLength < 2 ^ 32

structure Bounds (b : BlockIter) : Prop where
  room : b.restarts + b.numRestarts * 4 + 4 ≤ b.data.length
  pos : 0 < b.numRestarts
  lt : b.restarts < 2 ^ 32

structure Same (b it : BlockIter) : Prop where
  data : it.data = b.data
  restarts : it.restarts = b.restarts
  numRestarts : it.numRestarts = b.numRestarts

section Entries

variable {b it : BlockIter} {o : Nat}

theorem Bounds.restarts_le (hb : Bounds b) : b.restarts ≤ b.data.length := by
  have := hb.room
  omega

theorem decodeEntry_fits {input rest : Bytes} {shared nonShared valueLength : Nat}
    (h : decodeEntry input = some (shared, nonShared, valueLength, rest)) :
    (nonShared + valueLength) % 2 ^ 32 ≤ rest.length % 2 ^ 32 := by
  obtain ⟨⟨s, ns, vl, r⟩, -, hcheck⟩ := bind_eq_some_iff.mp h
  dsimp only at hcheck
  split_ifs at hcheck with hlt
  cases hcheck
  exact not_lt.mp hlt

theorem LengthsFit.decode (hfit : LengthsFit b) (hb : Bounds b) (ho : Reachable b o) :
    ∃ r, tryDecodeEntry b.data b.restarts o = .ok r ∧
      AfterHeader b.data b.restarts o r (decodeEntry ((b.data.take b.restarts).drop o)) ∧
      ∀ shared nonShared valueLength q, r = some (shared, nonShared, valueLength, q) →
        q + (nonShared + valueLength) ≤ b.restarts ∧
          Reachable b (q + (nonShared + valueLength)) := by
  obtain ⟨r, htry, hafter⟩ := tryDecodeEntry_spec (p := o) hb.restarts_le
  refine ⟨r, htry, hafter, ?_⟩
  rintro shared nonShared valueLength q rfl
  obtain ⟨hdecode, -, hq⟩ := hafter
  have hlength : ((b.data.take b.restarts).drop q).length = b.restarts - q := by
    rw [length_drop, length_take, Nat.min_eq_left hb.restarts_le]
  have hsum := hfit.entry ho hdecode
  have hle := decodeEntry_fits hdecode
  have hnext := Reachable.next ho hdecode
  rw [hlength] at hle hnext
  have hlt := hb.lt
  rw [Nat.mod_eq_of_lt hsum, Nat.mod_eq_of_lt (by omega)] at hle
  have hq' : b.restarts - (b.restarts - q) = q := by omega
  rw [hq'] at hnext
  exact ⟨by omega, hnext⟩

theorem view_eq {data : Bytes} {limit p n : Nat} (hp : p + n ≤ limit) (hlimit : limit ≤ data.length) :
    view data limit p n = .ok (((data.take limit).drop p).take n) := by
  rw [view, if_pos ⟨hp, hlimit⟩, drop_take, take_take, Nat.min_eq_left (by omega)]

theorem Same.tryGetRestartPoint (h : Same b it) (hb : Bounds b) {i : Nat} (hi : i < b.numRestarts) :
    it.tryGetRestartPoint i = .ok (b.getRestartPoint i) := by
  have hroom := hb.room
  unfold BlockIter.tryGetRestartPoint BlockIter.getRestartPoint
  rw [h.data, h.restarts, view_eq (by omega) (le_refl _)]
  rfl

theorem Same.getRestartPoint (h : Same b it) (i : Nat) :
    it.getRestartPoint i = b.getRestartPoint i := by
  unfold BlockIter.getRestartPoint
  rw [h.data, h.restarts]

theorem Same.tryPassRestarts (h : Same b it) (hb : Bounds b) {r : Nat} (turns : Nat)
    (hr : r < b.numRestarts) (hturns : b.numRestarts ≤ r + turns) :
    it.tryPassRestarts turns r = .ok (it.passRestarts turns r) ∧
      it.passRestarts turns r < b.numRestarts := by
  induction turns generalizing r with
  | zero => omega
  | succ turns ih =>
    rw [BlockIter.tryPassRestarts, BlockIter.passRestarts, h.numRestarts]
    by_cases hlast : r + 1 < b.numRestarts
    · rw [if_pos hlast, h.tryGetRestartPoint hb hlast, h.getRestartPoint]
      show (if b.getRestartPoint (r + 1) < it.current then _ else _) = _ ∧ _
      by_cases hpassed : b.getRestartPoint (r + 1) < it.current
      · rw [if_pos hpassed, if_pos ⟨hlast, hpassed⟩]
        exact ih hlast (by omega)
      · rw [if_neg hpassed, if_neg (fun hand => hpassed hand.2)]
        exact ⟨rfl, hr⟩
    · rw [if_neg hlast, if_neg (fun hand => hlast hand.1)]
      exact ⟨rfl, hr⟩

end Entries

/-! ## Calls without a fault -/

/-- An iterator over the block, whose only error is a bad entry. -/
structure Over (b it : BlockIter) : Prop extends Same b it where
  status : it.status = none ∨ it.status = some (.corruptionErr "bad entry in block")

/-- `ParseNextKey` comes to an offset that can be reached. -/
structure Ready (b it : BlockIter) : Prop extends Over b it where
  next : Reachable b it.nextEntryOffset
  index : it.restartIndex < b.numRestarts

/-- The iterator is on a decoded entry: its lengths are in front of it, its key and its value lie
    before the restart array. -/
def AtEntry (it : BlockIter) : Prop :=
  ∃ shared nonShared valueLength rest before,
    decodeEntry ((it.data.take it.restarts).drop it.current) =
      some (shared, nonShared, valueLength, rest) ∧
    nonShared + valueLength ≤ rest.length ∧ it.key = before ++ rest.take nonShared ∧
    before.length = shared ∧ it.value = (rest.drop nonShared).take valueLength ∧
    it.valueOffset + it.valueLength ≤ it.restarts

structure Rests (b it : BlockIter) : Prop extends Over b it where
  entry : it.valid = true → Ready b it ∧ it.AtEntry

section Calls

variable {b it : BlockIter}

theorem not_valid_toEnd (it : BlockIter) : it.toEnd.valid = false :=
  decide_eq_false (Nat.lt_irrefl it.restarts)

theorem Over.toEnd (h : Over b it) : Rests b it.toEnd where
  data := h.data
  restarts := h.restarts
  numRestarts := h.numRestarts
  status := h.status
  entry := fun hvalid => absurd hvalid (by rw [not_valid_toEnd]; decide)

theorem Same.corruptionError (h : Same b it) : Rests b it.corruptionError where
  data := h.data
  restarts := h.restarts
  numRestarts := h.numRestarts
  status := .inr rfl
  entry := fun hvalid => absurd hvalid (by
    have : it.corruptionError.valid = false := not_valid_toEnd it
    rw [this]
    decide)

/-- The iterator on the entry that `ParseNextKey` has decoded up to place `q`. -/
def landed (it : BlockIter) (shared nonShared valueLength q : Nat) : BlockIter :=
  let it := { it with current := it.nextEntryOffset }
  { it with
    key := it.key.take shared ++ ((it.data.take it.restarts).drop q).take nonShared
    valueOffset := q + nonShared
    valueLength := valueLength
    restartIndex := it.passRestarts it.numRestarts it.restartIndex }

section

variable (h : Ready b it) (hb : Bounds b)
include h hb

theorem Ready.landed {shared nonShared valueLength q : Nat}
    (hend : it.nextEntryOffset < it.restarts)
    (hdecode : decodeEntry ((it.data.take it.restarts).drop it.nextEntryOffset) =
      some (shared, nonShared, valueLength, (it.data.take it.restarts).drop q))
    (hshared : shared ≤ it.key.length) (hq : it.nextEntryOffset + 3 ≤ q)
    (hle : q + (nonShared + valueLength) ≤ it.restarts)
    (hreach : Reachable b (q + (nonShared + valueLength))) :
    Rests b (it.landed shared nonShared valueLength q) ∧
      (it.landed shared nonShared valueLength q).valid = true ∧
      it.nextEntryOffset + 3 ≤ (it.landed shared nonShared valueLength q).nextEntryOffset := by
  have hover : Over b { it with current := it.nextEntryOffset } :=
    ⟨⟨h.data, h.restarts, h.numRestarts⟩, h.status⟩
  have hlt : it.restarts < 2 ^ 32 := by
    rw [h.restarts]
    exact hb.lt
  have hoffset : (it.landed shared nonShared valueLength q).nextEntryOffset =
      q + (nonShared + valueLength) := by
    show (q + nonShared + valueLength) % 2 ^ 32 = _
    rw [Nat.mod_eq_of_lt (by omega), Nat.add_assoc]
  have hlength : ((it.data.take it.restarts).drop q).length = it.restarts - q := by
    have hroom := hb.restarts_le
    rw [← h.restarts, ← h.data] at hroom
    rw [length_drop, length_take, Nat.min_eq_left hroom]
  have hindex := (hover.tryPassRestarts hb it.numRestarts h.index
    (by rw [h.numRestarts]; omega)).2
  have hover' : Over b (it.landed shared nonShared valueLength q) :=
    ⟨⟨h.data, h.restarts, h.numRestarts⟩, h.status⟩
  refine ⟨⟨hover', fun _ => ⟨⟨hover', hoffset.symm ▸ hreach, hindex⟩, ?_⟩⟩, decide_eq_true hend, ?_⟩
  · refine ⟨shared, nonShared, valueLength, _, it.key.take shared, hdecode, ?_, rfl,
      length_take_of_le hshared, ?_, ?_⟩
    · rw [hlength]
      omega
    · show (it.data.drop (q + nonShared)).take valueLength = _
      rw [drop_drop, drop_take, take_take, Nat.min_eq_left (by omega)]
    · show q + nonShared + valueLength ≤ it.restarts
      omega
  · rw [hoffset]
    omega

/-- **`ParseNextKey`** has no fault: it comes to the end, finds a bad entry, or moves on by three
    bytes at least. -/
theorem Ready.parse (hfit : LengthsFit b) :
    ∃ more it', it.tryParseNextKey = .ok (more, it') ∧ it.parseNextKey = (more, it') ∧ Rests b it' ∧
      (more = true → it.nextEntryOffset < b.restarts ∧ it'.valid = true ∧
        it.nextEntryOffset + 3 ≤ it'.nextEntryOffset) := by
  have hover : Over b { it with current := it.nextEntryOffset } :=
    ⟨⟨h.data, h.restarts, h.numRestarts⟩, h.status⟩
  have hrestarts : it.restarts ≤ it.data.length := by
    rw [h.restarts, h.data]
    exact hb.restarts_le
  unfold tryParseNextKey parseNextKey
  dsimp only
  by_cases hend : it.restarts ≤ it.nextEntryOffset
  · rw [if_pos hend, if_pos hend]
    exact ⟨false, _, rfl, rfl, hover.toEnd, fun h => absurd h (by decide)⟩
  · rw [if_neg hend, if_neg hend]
    obtain ⟨r, htry, hafter, hnext⟩ := hfit.decode hb h.next
    rw [← h.data, ← h.restarts] at htry hafter
    rw [htry]
    match r, hafter with
    | none, hafter =>
      rw [hafter]
      exact ⟨false, _, rfl, rfl, hover.corruptionError, fun h => absurd h (by decide)⟩
    | some (shared, nonShared, valueLength, q), ⟨hdecode, hq, hlimit⟩ =>
      obtain ⟨hle, hreach⟩ := hnext _ _ _ _ rfl
      rw [← h.restarts] at hle
      rw [hdecode]
      dsimp only
      show ∃ more it', (if it.key.length < shared then _ else _) = _ ∧ _
      by_cases hshared : it.key.length < shared
      · rw [if_pos hshared, if_pos hshared]
        exact ⟨false, _, rfl, rfl, hover.corruptionError, fun h => absurd h (by decide)⟩
      · have hpass := (hover.tryPassRestarts hb it.numRestarts h.index
          (by rw [h.numRestarts]; omega)).1
        have hplace : it.restarts - ((it.data.take it.restarts).drop q).length = q := by
          rw [length_drop, length_take, Nat.min_eq_left hrestarts]
          omega
        rw [if_neg hshared, if_neg hshared, view_eq (by omega) hrestarts,
          view_eq (by omega) hrestarts, hpass, hplace]
        have hland := h.landed hb (not_le.mp hend) hdecode (not_lt.mp hshared) hq hle hreach
        exact ⟨true, it.landed shared nonShared valueLength q, rfl, rfl, hland.1,
          fun _ => ⟨h.restarts ▸ not_le.mp hend, hland.2⟩⟩

theorem Ready.tryNext (hfit : LengthsFit b) :
    it.tryNext = .ok it.next ∧ Rests b it.next := by
  obtain ⟨more, it', htry, hparse, hrests, -⟩ := h.parse hb hfit
  unfold BlockIter.tryNext BlockIter.next
  rw [htry, hparse]
  exact ⟨rfl, hrests⟩

end

def scan (goesOn : BlockIter → Bool) : Nat → BlockIter → BlockIter
  | 0, it => it
  | turns + 1, it =>
    match it.parseNextKey with
    | (false, it) => it
    | (true, it) => if goesOn it then scan goesOn turns it else it

theorem scanTo_eq (limit turns : Nat) (it : BlockIter) :
    scanTo limit turns it = scan (fun it => decide (it.nextEntryOffset < limit)) turns it := by
  induction turns generalizing it with
  | zero => rfl
  | succ turns ih =>
    rw [scanTo, scan]
    obtain ⟨more, it'⟩ := it.parseNextKey
    cases more with
    | false => rfl
    | true => simp only [ih, decide_eq_true_eq]

theorem scanFor_eq (cmp : Bytes → Bytes → Ordering) (target : Bytes) (turns : Nat) (it : BlockIter) :
    scanFor cmp target turns it = scan (fun it => decide (cmp it.key target = .lt)) turns it := by
  induction turns generalizing it with
  | zero => rfl
  | succ turns ih =>
    rw [scanFor, scan]
    obtain ⟨more, it'⟩ := it.parseNextKey
    cases more with
    | false => rfl
    | true => simp only [ih, decide_eq_true_eq]

theorem Ready.tryScan (h : Ready b it) (hb : Bounds b) (hfit : LengthsFit b)
    (goesOn : BlockIter → Bool) {turns : Nat} (hpos : 0 < turns)
    (hturns : b.restarts < it.nextEntryOffset + turns) :
    tryScan goesOn turns it = .ok (scan goesOn turns it) ∧ Rests b (scan goesOn turns it) := by
  induction turns generalizing it with
  | zero => omega
  | succ turns ih =>
    obtain ⟨more, it', htry, hparse, hrests, hmore⟩ := h.parse hb hfit
    rw [BlockIter.tryScan, BlockIter.scan, htry, hparse]
    show (if more && goesOn it' then _ else _) = _ ∧ _
    cases more with
    | false => exact ⟨rfl, hrests⟩
    | true =>
      obtain ⟨hlt, hvalid, hprogress⟩ := hmore rfl
      dsimp only
      rw [Bool.true_and]
      split_ifs
      · exact ih (hrests.entry hvalid).1 (by omega) (by omega)
      · exact ⟨rfl, hrests⟩

theorem Over.ready_restart (h : Over b it) {i : Nat} (hi : i < b.numRestarts) :
    Ready b (it.seekToRestartPoint i) := by
  refine ⟨⟨⟨h.data, h.restarts, h.numRestarts⟩, h.status⟩, ?_, hi⟩
  have hoffset : (it.seekToRestartPoint i).nextEntryOffset = b.getRestartPoint i := by
    show (it.getRestartPoint i + 0) % 2 ^ 32 = _
    rw [h.getRestartPoint, Nat.add_zero]
    exact Nat.mod_eq_of_lt (UInt32.toNat_lt _)
  rw [hoffset]
  exact .restart hi

section

variable (h : Over b it) (hb : Bounds b)
include h hb

theorem Over.trySeekToRestartPoint {i : Nat}
    (hi : i < b.numRestarts) : it.trySeekToRestartPoint i = .ok (it.seekToRestartPoint i) := by
  unfold BlockIter.trySeekToRestartPoint
  rw [h.tryGetRestartPoint hb hi]
  rfl

theorem Over.tryScan_restart (hfit : LengthsFit b) {i : Nat}
    (hi : i < b.numRestarts) (goesOn : BlockIter → Bool) :
    tryScan goesOn (it.restarts + 1) (it.seekToRestartPoint i) =
        .ok (scan goesOn (it.restarts + 1) (it.seekToRestartPoint i)) ∧
      Rests b (scan goesOn (it.restarts + 1) (it.seekToRestartPoint i)) :=
  (h.ready_restart hi).tryScan hb hfit goesOn (Nat.succ_pos _) (by rw [h.restarts]; omega)

theorem Over.trySeekToFirst (hfit : LengthsFit b) :
    it.trySeekToFirst = .ok it.seekToFirst ∧ Rests b it.seekToFirst := by
  unfold BlockIter.trySeekToFirst
  rw [h.trySeekToRestartPoint hb hb.pos]
  exact (h.ready_restart hb.pos).tryNext hb hfit

theorem Over.trySeekToLast (hfit : LengthsFit b) :
    it.trySeekToLast = .ok it.seekToLast ∧ Rests b it.seekToLast := by
  have hlast : it.numRestarts - 1 < b.numRestarts := by
    have := hb.pos
    rw [h.numRestarts]
    omega
  unfold BlockIter.trySeekToLast BlockIter.seekToLast
  rw [h.trySeekToRestartPoint hb hlast, scanTo_eq]
  exact h.tryScan_restart hb hfit hlast fun x => decide (x.nextEntryOffset < it.restarts)

theorem Over.tryRestartBefore (original : Nat) {r : Nat} (hr : r < b.numRestarts) :
    it.tryRestartBefore original r = .ok (it.restartBefore original r) ∧
      ∀ r', it.restartBefore original r = some r' → r' < b.numRestarts := by
  induction r with
  | zero =>
    rw [BlockIter.tryRestartBefore, BlockIter.restartBefore, h.tryGetRestartPoint hb hr,
      h.getRestartPoint]
    refine ⟨rfl, ?_⟩
    intro r' hr'
    split_ifs at hr'
    exact Option.some.inj hr' ▸ hr
  | succ r ih =>
    rw [BlockIter.tryRestartBefore, BlockIter.restartBefore, h.tryGetRestartPoint hb hr,
      h.getRestartPoint]
    show (if original ≤ b.getRestartPoint (r + 1) then _ else _) = _ ∧ _
    split_ifs
    · exact ih (by omega)
    · exact ⟨rfl, fun r' hr' => Option.some.inj hr' ▸ hr⟩

end

theorem Ready.tryPrev (h : Ready b it) (hb : Bounds b) (hfit : LengthsFit b) :
    it.tryPrev = .ok it.prev ∧ Rests b it.prev := by
  obtain ⟨htry, hlt⟩ := h.tryRestartBefore hb it.current h.index
  unfold BlockIter.tryPrev BlockIter.prev
  rw [htry]
  cases hbefore : it.restartBefore it.current it.restartIndex with
  | none => exact ⟨rfl, h.toEnd⟩
  | some r =>
    dsimp only
    rw [scanTo_eq]
    show (it.trySeekToRestartPoint r >>= _) = _ ∧ _
    rw [h.trySeekToRestartPoint hb (hlt r hbefore)]
    exact h.tryScan_restart hb hfit (hlt r hbefore) fun x => decide (x.nextEntryOffset < it.current)

theorem Over.tryFindRestart (h : Over b it) (hb : Bounds b) (hfit : LengthsFit b)
    (cmp : Bytes → Bytes → Ordering) (target : Bytes) (turns : Nat) {left right : Nat}
    (hleft : left < b.numRestarts) (hright : right < b.numRestarts) (hturns : right ≤ left + turns) :
    it.tryFindRestart cmp target turns left right = .ok (it.findRestart cmp target turns left right) ∧
      ∀ r, it.findRestart cmp target turns left right = some r → r < b.numRestarts := by
  induction turns generalizing left right with
  | zero =>
    rw [BlockIter.tryFindRestart, if_neg (by omega)]
    exact ⟨rfl, fun r hr => Option.some.inj hr ▸ hleft⟩
  | succ turns ih =>
    rw [BlockIter.tryFindRestart, BlockIter.findRestart]
    by_cases hlt : left < right
    · rw [if_pos hlt, if_pos hlt]
      dsimp only
      have hfew := hfit.restarts
      generalize hmid : (left + right + 1) % 2 ^ 32 / 2 = mid
      have hmid_lt : mid < b.numRestarts := by omega
      have hbelow : (mid + (2 ^ 32 - 1)) % 2 ^ 32 = mid - 1 := by omega
      obtain ⟨r, htry, hafter, hnext⟩ := hfit.decode hb (.restart hmid_lt)
      rw [h.tryGetRestartPoint hb hmid_lt, h.getRestartPoint, h.data, h.restarts, hbelow]
      show (tryDecodeEntry b.data b.restarts (b.getRestartPoint mid) >>= _) = _ ∧ _
      rw [htry]
      rcases r with - | ⟨shared, nonShared, valueLength, q⟩
      · rw [show _ = none from hafter]
        exact ⟨rfl, fun r hr => absurd hr.symm (some_ne_none r)⟩
      · obtain ⟨hle, -⟩ := hnext _ _ _ _ rfl
        rw [hafter.1]
        dsimp only
        show (if shared ≠ 0 then _ else _) = _ ∧ _
        by_cases hshared : shared ≠ 0
        · rw [if_pos hshared, if_pos hshared]
          exact ⟨rfl, fun r hr => absurd hr.symm (some_ne_none r)⟩
        · rw [if_neg hshared, if_neg hshared, view_eq (by omega) hb.restarts_le]
          show (if cmp _ target = .lt then _ else _) = _ ∧ _
          split_ifs
          · exact ih hmid_lt hright (by omega)
          · exact ih hleft (by omega) (by omega)
    · rw [if_neg hlt, if_neg hlt]
      exact ⟨rfl, fun r hr => Option.some.inj hr ▸ hleft⟩

theorem Rests.trySeek (h : Rests b it) (hb : Bounds b) (hfit : LengthsFit b)
    (cmp : Bytes → Bytes → Ordering) (target : Bytes) :
    it.trySeek cmp target = .ok (it.seek cmp target) ∧ Rests b (it.seek cmp target) := by
  have hpos := hb.pos
  unfold BlockIter.trySeek BlockIter.seek
  dsimp only
  generalize hcompared : (if it.valid = true then cmp it.key target else .eq) = compared
  by_cases hsame : it.valid = true ∧ compared = .eq
  · rw [if_pos hsame, if_pos hsame]
    exact ⟨rfl, h.toOver, h.entry⟩
  · -- The key of an iterator that is not valid is not compared.
    have hready : compared ≠ .eq → Ready b it := by
      intro hne
      by_cases hvalid : it.valid = true
      · exact (h.entry hvalid).1
      · rw [if_neg hvalid] at hcompared
        exact absurd hcompared.symm hne
    rw [if_neg hsame, if_neg hsame]
    generalize hleft : (if compared = .lt then it.restartIndex else 0) = left
    generalize hright : (if compared = .gt then it.restartIndex else it.numRestarts - 1) = right
    have hleft_lt : left < b.numRestarts := by
      rw [← hleft]
      split_ifs with hlt
      · exact (hready (by rw [hlt]; decide)).index
      · exact hpos
    have hright_lt : right < b.numRestarts := by
      rw [← hright]
      split_ifs with hgt
      · exact (hready (by rw [hgt]; decide)).index
      · rw [h.numRestarts]
        omega
    obtain ⟨htry, hfound⟩ := h.tryFindRestart hb hfit cmp target it.numRestarts hleft_lt
      hright_lt (by rw [h.numRestarts]; omega)
    rw [htry]
    cases hfind : it.findRestart cmp target it.numRestarts left right with
    | none => exact ⟨rfl, h.toSame.corruptionError⟩
    | some r =>
      dsimp only
      rw [scanFor_eq]
      show (if r = it.restartIndex ∧ compared = .lt then tryScanFor cmp target (it.restarts + 1) it
        else it.trySeekToRestartPoint r >>= tryScanFor cmp target (it.restarts + 1)) = _ ∧ _
      by_cases hskip : r = it.restartIndex ∧ compared = .lt
      · rw [if_pos hskip, if_pos hskip]
        exact (hready (by rw [hskip.2]; decide)).tryScan hb hfit _ (Nat.succ_pos _)
          (by rw [h.restarts]; omega)
      · rw [if_neg hskip, if_neg hskip, h.trySeekToRestartPoint hb (hfound r hfind)]
        exact h.tryScan_restart hb hfit (hfound r hfind) fun x => decide (cmp x.key target = .lt)

end Calls

end BlockIter

/-! ## Runs -/

theorem newIterator_rests {contents : Bytes} {b : BlockIter}
    (h : (Block.new contents).newIterator = .block b) : b.Bounds ∧ b.Rests b := by
  unfold Block.new at h
  dsimp only at h
  have hcount : Block.numRestarts contents contents.length < 2 ^ 32 := UInt32.toNat_lt _
  split_ifs at h with hshort hmany
  · exact absurd h Iter.noConfusion
  · exact absurd h Iter.noConfusion
  · unfold Block.newIterator at h
    dsimp only at h
    split_ifs at h with hzero
    obtain rfl := Iter.block.inj h
    refine ⟨⟨?_, Nat.pos_of_ne_zero hzero, Nat.mod_lt _ (by decide)⟩,
      ⟨⟨rfl, rfl, rfl⟩, .inl rfl⟩, fun hvalid => ?_⟩
    · show (contents.length - (1 + Block.numRestarts contents contents.length) % 2 ^ 32 * 4) % 2 ^ 32 +
        Block.numRestarts contents contents.length * 4 + 4 ≤ contents.length
      omega
    · exact absurd (of_decide_eq_true hvalid) (Nat.lt_irrefl _)

theorem newIterator_status {contents : Bytes} {status : Option Status}
    (h : (Block.new contents).newIterator = .empty status) :
    status = none ∨ status = some (.corruptionErr "bad block contents") := by
  grind [Block.newIterator, Iter.empty.inj]

namespace Iter

def AtEntry : Iter → Prop
  | block it => it.AtEntry
  | empty _ => False

/-- What holds along a run over the block of `b`. -/
def RestsOn (b : BlockIter) : Iter → Prop
  | block it => b.Rests it
  | empty _ => False

section

variable {b : BlockIter} {it : Iter} (h : it.RestsOn b)
include h

theorem RestsOn.tryMap {call : BlockIter → BlockIter} {tryCall : BlockIter → Except Fault BlockIter}
    (hcall : ∀ x, it = .block x → b.Rests x → tryCall x = .ok (call x) ∧ b.Rests (call x)) :
    it.tryMap tryCall = .ok (it.map call) ∧ (it.map call).RestsOn b := by
  cases it with
  | empty status => exact h.elim
  | block x =>
    obtain ⟨htry, hrests⟩ := hcall x rfl h
    exact ⟨by rw [Iter.tryMap, htry]; rfl, hrests⟩

section

variable (hb : b.Bounds) (hfit : b.LengthsFit) (cmp : Bytes → Bytes → Ordering)
include hb hfit cmp

theorem RestsOn.tryStep (call : Call Bytes) :
    it.tryStep cmp call = .ok ((machine cmp).step it call) ∧
      ∀ it', (machine cmp).step it call = some it' → it'.RestsOn b := by
  have hready : it.current.isSome = true → ∀ x, it = .block x → b.Rests x → b.Ready x := by
    rintro hvalid x rfl hx
    refine (hx.entry ?_).1
    by_contra hnot
    rw [Iter.current, if_neg hnot] at hvalid
    exact absurd hvalid (by decide)
  have hmoves : ∀ {f : BlockIter → BlockIter} {g : BlockIter → Except Fault BlockIter},
      (∀ x, b.Ready x → g x = .ok (f x) ∧ b.Rests (f x)) →
      (if it.current.isSome then some <$> it.tryMap g else .ok none) =
          .ok (if it.current.isSome then some (it.map f) else none) ∧
        ∀ it', (if it.current.isSome then some (it.map f) else none) = some it' → it'.RestsOn b := by
    intro f g hcall
    by_cases hvalid : it.current.isSome = true
    · obtain ⟨htry, hrests⟩ := h.tryMap fun x hx hrests => hcall x (hready hvalid x hx hrests)
      rw [if_pos hvalid, if_pos hvalid, htry]
      exact ⟨rfl, fun it' hit' => Option.some.inj hit' ▸ hrests⟩
    · simp_all
  have hseeks : ∀ {f : BlockIter → BlockIter} {g : BlockIter → Except Fault BlockIter},
      (∀ x, b.Rests x → g x = .ok (f x) ∧ b.Rests (f x)) →
      some <$> it.tryMap g = .ok (some (it.map f)) ∧
        ∀ it', some (it.map f) = some it' → it'.RestsOn b := by
    intro f g hcall
    obtain ⟨htry, hrests⟩ := h.tryMap fun x _ hx => hcall x hx
    rw [htry]
    exact ⟨rfl, fun it' hit' => Option.some.inj hit' ▸ hrests⟩
  cases call with
  | seekToFirst => exact hseeks fun x hx => hx.trySeekToFirst hb hfit
  | seekToLast => exact hseeks fun x hx => hx.trySeekToLast hb hfit
  | seek target => exact hseeks fun x hx => hx.trySeek hb hfit cmp target
  | next => exact hmoves fun x hx => hx.tryNext hb hfit
  | prev => exact hmoves fun x hx => hx.tryPrev hb hfit

theorem RestsOn.tryRun (calls : List (Call Bytes)) :
    it.tryRun cmp calls = .ok (calls.foldlM (machine cmp).step it) ∧
      ∀ it', calls.foldlM (machine cmp).step it = some it' → it'.RestsOn b := by
  induction calls generalizing it with
  | nil => exact ⟨rfl, fun it' hit' => Option.some.inj hit' ▸ h⟩
  | cons call calls ih =>
    obtain ⟨htry, hrests⟩ := h.tryStep hb hfit cmp call
    rw [Iter.tryRun, foldlM_cons, htry]
    cases hstep : (machine cmp).step it call with
    | none => exact ⟨rfl, fun it' hit' => absurd hit'.symm (some_ne_none it')⟩
    | some it₁ => exact ih (hrests it₁ hstep)

end

end

theorem tryRun_empty (status : Option Status) (cmp : Bytes → Bytes → Ordering)
    (calls : List (Call Bytes)) :
    (empty status).tryRun cmp calls = .ok (calls.foldlM (machine cmp).step (empty status)) ∧
      ∀ it, calls.foldlM (machine cmp).step (empty status) = some it → it = empty status := by
  induction calls with
  | nil => exact ⟨rfl, fun it hit => (Option.some.inj hit).symm⟩
  | cons call calls ih =>
    have hnone : ∀ it, none = some it → it = empty status := fun it hit =>
      absurd hit.symm (some_ne_none it)
    cases call with
    | seekToFirst => exact ih
    | seekToLast => exact ih
    | seek target => exact ih
    | next => exact ⟨rfl, hnone⟩
    | prev => exact ⟨rfl, hnone⟩

end Iter

/-- The bytes of an entry that can be reached have lengths with a sum below 2^32, and there are at
    most 2^31 restart points. -/
def Block.LengthsFit (contents : Bytes) : Prop :=
  ∀ b, (Block.new contents).newIterator = .block b → b.LengthsFit

/-- **Block iterators on arbitrary bytes.** No run of calls reads or hands out a byte outside the
    entries, every call returns, and it ends at a decoded entry or at none; the only errors are
    corruptions. -/
theorem block_iterator_safe (contents : Bytes) (cmp : Bytes → Bytes → Ordering)
    (hfit : Block.LengthsFit contents) (calls : List (Call Bytes)) :
    (Block.new contents).newIterator.tryRun cmp calls =
        .ok (calls.foldlM (Iter.machine cmp).step (Block.new contents).newIterator) ∧
      ∀ it, calls.foldlM (Iter.machine cmp).step (Block.new contents).newIterator = some it →
        (it.AtEntry ∨ it.current = none) ∧
          (it.status = none ∨ ∃ text, it.status = some (.corruptionErr text)) := by
  cases hnew : (Block.new contents).newIterator with
  | empty status =>
    obtain ⟨htry, hrun⟩ := Iter.tryRun_empty status cmp calls
    refine ⟨htry, fun it hit => ?_⟩
    obtain rfl := hrun it hit
    exact ⟨.inr rfl, (newIterator_status hnew).imp id fun h => ⟨_, h⟩⟩
  | block b =>
    obtain ⟨hb, hrests⟩ := newIterator_rests hnew
    have hstart : (Iter.block b).RestsOn b := hrests
    obtain ⟨htry, hrun⟩ := hstart.tryRun hb (hfit b hnew) cmp calls
    refine ⟨htry, fun it hit => ?_⟩
    have hend := hrun it hit
    cases it with
    | empty status => exact hend.elim
    | block x =>
      refine ⟨?_, hend.status.imp id fun h => ⟨_, h⟩⟩
      by_cases hvalid : x.valid = true
      · exact .inl (hend.entry hvalid).2
      · exact .inr (if_neg hvalid)

theorem block_iterator_safe_one :
    Block.LengthsFit [0, 1, 1, 97, 98, 0, 0, 0, 0, 1, 0, 0, 0] ∧
    (Block.new [0, 1, 1, 97, 98, 0, 0, 0, 0, 1, 0, 0, 0]).newIterator.tryRun
        TableOrder.bytewise.comparator.compare [.seekToLast, .prev, .seek [97], .next] =
      .ok ([.seekToLast, .prev, .seek [97], .next].foldlM
        (Iter.machine TableOrder.bytewise.comparator.compare).step
        (Block.new [0, 1, 1, 97, 98, 0, 0, 0, 0, 1, 0, 0, 0]).newIterator) := by
  have hfit : Block.LengthsFit [0, 1, 1, 97, 98, 0, 0, 0, 0, 1, 0, 0, 0] := by
    intro b hb
    obtain rfl : BlockIter.new [0, 1, 1, 97, 98, 0, 0, 0, 0, 1, 0, 0, 0] 5 1 = b :=
      Iter.block.inj (Eq.trans (by decide +kernel) hb)
    refine ⟨by decide, ?_⟩
    intro o shared nonShared valueLength rest _ hdecode
    have hsmall : ∀ o < 5, (decodeEntry (([0, 1, 1, 97, 98] : Bytes).drop o)).all
        (fun x => decide (x.2.1 + x.2.2.1 < 2 ^ 32)) = true := by
      decide +kernel
    change decodeEntry (([0, 1, 1, 97, 98] : Bytes).drop o) = _ at hdecode
    by_cases ho : o < 5
    · have hall := hsmall o ho
      rw [hdecode] at hall
      exact of_decide_eq_true hall
    · rw [drop_of_length_le (not_lt.mp ho)] at hdecode
      exact absurd hdecode.symm (some_ne_none _)
  exact ⟨hfit, (block_iterator_safe _ _ hfit _).1⟩

/-- **A block of 15 bytes makes the iterator read four gigabytes.** The one entry says that its key
    has 2^32 - 1 bytes and its value 1: the sum is 0 as a `uint32_t`, which is not more than the
    bytes that are left. -/
theorem block_iterator_faults :
    (Block.new [0, 255, 255, 255, 255, 15, 1, 0, 0, 0, 0, 1, 0, 0, 0]).newIterator.tryRun
      TableOrder.bytewise.comparator.compare [.seekToFirst] = .error .outOfBounds := by
  decide +kernel

end LevelDB
