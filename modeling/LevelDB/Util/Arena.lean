/-
  The arena of a memtable (`util/arena.h`, `util/arena.cc`).

  Addresses are natural numbers, and a new block is an aligned interval apart from the blocks that
  are there. Sums of sizes are taken modulo `2 ^ 64`.
-/
import Mathlib.Tactic
import LevelDB.Lib.Trace

namespace LevelDB

open List

/-- `class Arena`: the blocks are pairs of an address and a size. -/
structure Arena where
  allocPtr : Nat := 0
  allocBytesRemaining : Nat := 0
  blocks : List (Nat × Nat) := []
  memoryUsage : Nat := 0
  deriving DecidableEq

namespace Arena

def kBlockSize : Nat := 4096

/-- `AllocateNewBlock`, when the new block is at `address`. The size of a pointer is 8. -/
def allocateNewBlock (a : Arena) (address blockBytes : Nat) : Nat × Arena :=
  (address, { a with
    blocks := a.blocks ++ [(address, blockBytes)]
    memoryUsage := (a.memoryUsage + (blockBytes + 8) % 2 ^ 64) % 2 ^ 64 })

def allocateFallback (a : Arena) (address bytes : Nat) : Nat × Arena :=
  if bytes > kBlockSize / 4 then a.allocateNewBlock address bytes
  else
    let (ptr, a) := a.allocateNewBlock address kBlockSize
    (ptr, { a with allocPtr := ptr + bytes, allocBytesRemaining := kBlockSize - bytes })

def allocate (a : Arena) (address bytes : Nat) : Nat × Arena :=
  if bytes ≤ a.allocBytesRemaining then
    (a.allocPtr, { a with
      allocPtr := a.allocPtr + bytes
      allocBytesRemaining := a.allocBytesRemaining - bytes })
  else a.allocateFallback address bytes

def allocateAligned (a : Arena) (address bytes : Nat) : Nat × Arena :=
  let currentMod := a.allocPtr % 8
  let slop := if currentMod = 0 then 0 else 8 - currentMod
  let needed := (bytes + slop) % 2 ^ 64
  if needed ≤ a.allocBytesRemaining then
    (a.allocPtr + slop, { a with
      allocPtr := a.allocPtr + needed
      allocBytesRemaining := a.allocBytesRemaining - needed })
  else a.allocateFallback address bytes

/-- A call that has returned: which one it was, the size, and the address returned. -/
structure Allocation where
  aligned : Bool
  bytes : Nat
  start : Nat

def Apart (a b : Nat × Nat) : Prop := a.1 + a.2 ≤ b.1 ∨ b.1 + b.2 ≤ a.1

def Allocation.interval (e : Allocation) : Nat × Nat := (e.start, e.bytes)

def blockBytes (bytes : Nat) : Nat := if bytes > kBlockSize / 4 then bytes else kBlockSize

def call (a : Arena) (aligned : Bool) (address bytes : Nat) : Nat × Arena :=
  if aligned then a.allocateAligned address bytes else a.allocate address bytes

def Step (a : Arena) (e : Allocation) (a' : Arena) : Prop :=
  0 < e.bytes ∧ ∃ address, address % 8 = 0 ∧
    (∀ b ∈ a.blocks, Apart (address, blockBytes e.bytes) b) ∧
    a.call e.aligned address e.bytes = (e.start, a')

/-! ## What a call does -/

theorem allocateFallback_cases {a a' : Arena} {address bytes start : Nat}
    (h : a.allocateFallback address bytes = (start, a')) :
    start = address ∧ a'.blocks = a.blocks ++ [(address, blockBytes bytes)] ∧
      a'.memoryUsage = (a.memoryUsage + (blockBytes bytes + 8)) % 2 ^ 64 ∧
      bytes ≤ blockBytes bytes ∧
      (a'.allocPtr = a.allocPtr ∧ a'.allocBytesRemaining = a.allocBytesRemaining ∨
        a'.allocPtr = address + bytes ∧
          a'.allocBytesRemaining + bytes = blockBytes bytes) := by
  unfold allocateFallback at h
  unfold blockBytes
  split_ifs at h ⊢ with hlarge
  · obtain ⟨rfl, rfl⟩ := Prod.mk.inj h
    exact ⟨rfl, rfl, Nat.add_mod_mod .., le_refl _, Or.inl ⟨rfl, rfl⟩⟩
  · obtain ⟨rfl, rfl⟩ := Prod.mk.inj h
    have hsmall : bytes ≤ kBlockSize := by
      unfold kBlockSize at hlarge ⊢
      omega
    exact ⟨rfl, rfl, rfl, hsmall, Or.inr ⟨rfl, Nat.sub_add_cancel hsmall⟩⟩

theorem call_cases {a a' : Arena} {aligned : Bool} {address bytes start : Nat}
    (h : a.call aligned address bytes = (start, a')) (hfits : bytes + 8 ≤ 2 ^ 64)
    (haddress : address % 8 = 0) :
    (aligned = true → start % 8 = 0) ∧
    ((a'.blocks = a.blocks ∧ a'.memoryUsage = a.memoryUsage ∧ a.allocPtr ≤ start ∧
        a'.allocPtr = start + bytes ∧
        a'.allocPtr + a'.allocBytesRemaining = a.allocPtr + a.allocBytesRemaining) ∨
      a.allocateFallback address bytes = (start, a')) := by
  unfold call allocate allocateAligned at h
  dsimp only at h
  have hfallback : a.allocateFallback address bytes = (start, a') → start % 8 = 0 :=
    fun h => (allocateFallback_cases h).1 ▸ haddress
  cases aligned with
  | true =>
    rw [if_pos rfl] at h
    obtain ⟨slop, hslop, hle, haligned⟩ : ∃ slop,
        (if a.allocPtr % 8 = 0 then 0 else 8 - a.allocPtr % 8) = slop ∧ slop < 8 ∧
          (a.allocPtr + slop) % 8 = 0 := ⟨_, rfl, by split_ifs <;> omega, by split_ifs <;> omega⟩
    -- the sum with the alignment does not wrap
    rw [hslop, Nat.mod_eq_of_lt (show bytes + slop < 2 ^ 64 by omega)] at h
    split_ifs at h
    · obtain ⟨rfl, rfl⟩ := Prod.mk.inj h
      refine ⟨fun _ => haligned, Or.inl ⟨rfl, rfl, Nat.le_add_right _ _, ?_, ?_⟩⟩
      · show a.allocPtr + (bytes + slop) = a.allocPtr + slop + bytes
        omega
      · show a.allocPtr + (bytes + slop) + (a.allocBytesRemaining - (bytes + slop)) = _
        omega
    · exact ⟨fun _ => hfallback h, Or.inr h⟩
  | false =>
    rw [if_neg Bool.false_ne_true] at h
    refine ⟨fun ht => absurd ht Bool.false_ne_true, ?_⟩
    split_ifs at h
    · obtain ⟨rfl, rfl⟩ := Prod.mk.inj h
      refine Or.inl ⟨rfl, rfl, le_refl _, rfl, ?_⟩
      show a.allocPtr + bytes + (a.allocBytesRemaining - bytes) = _
      omega
    · exact Or.inr h

/-! ## Runs -/

def total (a : Arena) : Nat := (a.blocks.map fun b => b.2 + 8).sum

/-- What has been returned, and what is left of the current block. -/
structure Laid (events : List Allocation) (a : Arena) : Prop where
  inside : ∀ e ∈ events, ∃ b ∈ a.blocks, b.1 ≤ e.start ∧ e.start + e.bytes ≤ b.1 + b.2
  apart : events.Pairwise fun e e' => Apart e.interval e'.interval
  aligned : ∀ e ∈ events, e.aligned = true → e.start % 8 = 0
  current : (a.allocPtr = 0 ∧ a.allocBytesRemaining = 0) ∨ ∃ b ∈ a.blocks, b.1 ≤ a.allocPtr ∧
    a.allocPtr + a.allocBytesRemaining ≤ b.1 + b.2
  rest : ∀ e ∈ events, Apart e.interval (a.allocPtr, a.allocBytesRemaining)
  usage : a.memoryUsage = a.total % 2 ^ 64

theorem Laid.step {events : List Allocation} {a a' : Arena} {e : Allocation} (h : Laid events a)
    (hstep : Step a e a') (hfits : e.bytes + 8 ≤ 2 ^ 64) : Laid (events ++ [e]) a' := by
  obtain ⟨hpos, address, haddress, hfresh, hcall⟩ := hstep
  obtain ⟨haligned, hcases⟩ := call_cases hcall hfits haddress
  have hsnoc : ∀ {P : Allocation → Prop}, (∀ x ∈ events, P x) → P e → ∀ x ∈ events ++ [e], P x := by
    intro P hold hnew x hx
    obtain hx | hx := mem_append.mp hx
    · exact hold x hx
    · exact eq_of_mem_singleton hx ▸ hnew
  have hpairwise : (∀ x ∈ events, Apart x.interval e.interval) →
      (events ++ [e]).Pairwise fun e e' => Apart e.interval e'.interval := by
    intro hnew
    refine pairwise_append.mpr ⟨h.apart, pairwise_singleton _ _, fun x hx y hy => ?_⟩
    exact eq_of_mem_singleton hy ▸ hnew x hx
  obtain ⟨hblocks, husage, hstart, hptr, hend⟩ | hfallback := hcases
  · -- from the current block
    obtain ⟨hzero, hzero'⟩ | ⟨b, hb, hlo, hhi⟩ := h.current
    · omega
    refine ⟨?_, hpairwise fun x hx => ?_, hsnoc h.aligned haligned, ?_, ?_, ?_⟩
    · rw [hblocks]
      exact hsnoc h.inside ⟨b, hb, by omega, by omega⟩
    · have := h.rest x hx
      unfold Apart Allocation.interval at *
      dsimp only at *
      omega
    · rw [hblocks]
      exact Or.inr ⟨b, hb, by omega, by omega⟩
    · refine hsnoc (fun x hx => ?_) ?_
      · have := h.rest x hx
        unfold Apart Allocation.interval at *
        dsimp only at *
        omega
      · exact Or.inl hptr.ge
    · rw [husage, h.usage, total, total, hblocks]
  · obtain ⟨hstart, hblocks, husage, hle, hrest⟩ := allocateFallback_cases hfallback
    have hmem : (address, blockBytes e.bytes) ∈ a'.blocks := by
      rw [hblocks]
      exact mem_append_right _ mem_cons_self
    have hold : ∀ b ∈ a.blocks, b ∈ a'.blocks := by
      rw [hblocks]
      exact fun b hb => mem_append_left _ hb
    -- what was returned before lies in other blocks
    have hnew : ∀ x ∈ events, Apart x.interval (address, blockBytes e.bytes) := by
      intro x hx
      obtain ⟨b, hb, hlo, hhi⟩ := h.inside x hx
      have := hfresh b hb
      unfold Apart Allocation.interval at *
      dsimp only at *
      omega
    have hsub : ∀ {x : Allocation} {lo size : Nat}, Apart x.interval (address, blockBytes e.bytes) →
        address ≤ lo → lo + size ≤ address + blockBytes e.bytes → Apart x.interval (lo, size) := by
      intro x lo size hx hlo hhi
      unfold Apart at *
      dsimp only at *
      omega
    refine ⟨?_, hpairwise fun x hx => hsub (hnew x hx) hstart.ge (by omega),
      hsnoc h.aligned haligned, ?_, ?_, ?_⟩
    · refine hsnoc (fun x hx => ?_) ⟨_, hmem, hstart.ge, by omega⟩
      obtain ⟨b, hb, hin⟩ := h.inside x hx
      exact ⟨b, hold b hb, hin⟩
    · obtain ⟨hptr, hrem⟩ | ⟨hptr, hrem⟩ := hrest
      · rw [hptr, hrem]
        exact h.current.imp_right fun ⟨b, hb, hin⟩ => ⟨b, hold b hb, hin⟩
      · exact Or.inr ⟨_, hmem, by dsimp only; omega, by dsimp only; omega⟩
    · obtain ⟨hptr, hrem⟩ | ⟨hptr, hrem⟩ := hrest
      · rw [hptr, hrem]
        refine hsnoc h.rest ?_
        obtain ⟨hzero, hzero'⟩ | ⟨b, hb, hlo, hhi⟩ := h.current
        · rw [hzero, hzero']
          exact Or.inr (Nat.zero_le _)
        · have := hfresh b hb
          unfold Apart Allocation.interval at *
          dsimp only at *
          omega
      · refine hsnoc (fun x hx => hsub (hnew x hx) (by omega) (by omega)) ?_
        exact Or.inl (by show e.start + e.bytes ≤ a'.allocPtr; omega)
    · rw [husage, h.usage, total, total, hblocks, map_append, sum_append, Nat.mod_add_mod]
      rfl

theorem laid_of_trace {events : List Allocation} {a : Arena}
    (h : Transition.Trace {} Step events a) (hfits : ∀ e ∈ events, e.bytes + 8 ≤ 2 ^ 64) :
    Laid events a := by
  induction h with
  | start =>
    exact ⟨nofun, List.Pairwise.nil, nofun, Or.inl ⟨rfl, rfl⟩, nofun, rfl⟩
  | step _ hstep ih =>
    exact (ih fun e he => hfits e (mem_append_left _ he)).step hstep
      (hfits _ (mem_append_right _ mem_cons_self))

/-- **Allocations are apart and aligned**, inside the blocks of the arena, and `MemoryUsage` counts
    the blocks: in all runs with sizes that leave room for the alignment in 64 bits, and as long as
    the sum does. -/
theorem arena_allocations {events : List Allocation} {a : Arena}
    (h : Transition.Trace {} Step events a) (hfits : ∀ e ∈ events, e.bytes + 8 ≤ 2 ^ 64)
    (htotal : a.total < 2 ^ 64) :
    (∀ e ∈ events, ∃ b ∈ a.blocks, b.1 ≤ e.start ∧ e.start + e.bytes ≤ b.1 + b.2) ∧
    (events.Pairwise fun e e' => Apart e.interval e'.interval) ∧
    (∀ e ∈ events, e.aligned = true → e.start % 8 = 0) ∧ a.memoryUsage = a.total := by
  have hlaid := laid_of_trace h hfits
  refine ⟨hlaid.inside, hlaid.apart, hlaid.aligned, ?_⟩
  rw [hlaid.usage, Nat.mod_eq_of_lt htotal]

theorem arena_allocations_run :
    (⟨4112, 4080, [(4096, 4096)], 4104⟩ : Arena).memoryUsage = 4096 + 8 := by
  have hfirst : Transition.Trace {} Step [⟨false, 3, 4096⟩] ⟨4099, 4093, [(4096, 4096)], 4104⟩ :=
    .step .start ⟨by decide, 4096, rfl, nofun, rfl⟩
  have hword : Transition.Trace {} Step [⟨false, 3, 4096⟩, ⟨true, 8, 4104⟩]
      ⟨4112, 4080, [(4096, 4096)], 4104⟩ :=
    hfirst.step ⟨by decide, 8192, rfl, by simp [Apart, blockBytes, kBlockSize], rfl⟩
  exact (arena_allocations hword (by simp) (by decide)).2.2.2

/-- Four bytes, and then `2 ^ 64 - 4` aligned ones: with four bytes to the next word the sum is zero,
    and an address in the current block is returned. -/
theorem arena_wraps : ∃ a : Arena,
    Transition.Trace {} Step [⟨false, 4, 4096⟩, ⟨true, 2 ^ 64 - 4, 4104⟩] a ∧
      a.blocks = [(4096, 4096)] ∧
      ¬∃ b ∈ a.blocks, b.1 ≤ 4104 ∧ 4104 + (2 ^ 64 - 4) ≤ b.1 + b.2 := by
  have hfirst : Transition.Trace {} Step [⟨false, 4, 4096⟩] ⟨4100, 4092, [(4096, 4096)], 4104⟩ :=
    .step .start ⟨by decide, 4096, rfl, nofun, rfl⟩
  refine ⟨⟨4100, 4092, [(4096, 4096)], 4104⟩, hfirst.step ?_, rfl, by simp⟩
  exact ⟨by decide, 8192, rfl, by simp [Apart], by decide +kernel⟩

end Arena

end LevelDB
