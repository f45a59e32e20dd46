/-
  Options as the database takes them (`ClipToRange` and `SanitizeOptions` in `db/db_impl.cc`).

  One template clips an `int` and three fields of type `size_t`, and compares them as `int`: of a
  size only the low 32 bits are looked at, and their highest bit is a sign.
-/
import Mathlib.Tactic

namespace LevelDB

/-- `static_cast<int>` of a size. -/
def castInt (size : Nat) : Int := Int.bmod size (2 ^ 32)

/-- `ClipToRange`, for a type with its casts from and to `int`. -/
def clipToRange {T : Type} (cast : T → Int) (assign : Int → T) (minvalue maxvalue : Int) (value : T) :
    T :=
  let value := if cast value > maxvalue then assign maxvalue else value
  if cast value < minvalue then assign minvalue else value

def clipInt : Int → Int → Int → Int := clipToRange id id

def clipSize (minvalue maxvalue : Nat) : Nat → Nat := clipToRange castInt Int.toNat minvalue maxvalue

/-- The fields of `Options` that are clipped. -/
structure UserOptions where
  maxOpenFiles : Int
  writeBufferSize : Nat
  maxFileSize : Nat
  blockSize : Nat
  deriving DecidableEq, Repr

/-- `SanitizeOptions`: from `64 << 10` to `1 << 30`, from `1 << 20` to `1 << 30`, and from `1 << 10`
    to `4 << 20`. -/
def sanitizeOptions (src : UserOptions) : UserOptions where
  maxOpenFiles := clipInt (64 + 10) 50000 src.maxOpenFiles
  writeBufferSize := clipSize 65536 1073741824 src.writeBufferSize
  maxFileSize := clipSize 1048576 1073741824 src.maxFileSize
  blockSize := clipSize 1024 4194304 src.blockSize

/-! ## One field -/

/-- The value is clipped into its range and not changed there, and it keeps the order to the values
    of `kept`. -/
structure ClippedTo {T : Type} [LE T] (lo hi : T) (kept : T → Prop) (clip : T → T) (v : T) :
    Prop where
  ge : lo ≤ clip v
  le : clip v ≤ hi
  same : lo ≤ v → v ≤ hi → clip v = v
  monotone : ∀ w, kept w → (w ≤ v → clip w ≤ clip v) ∧ (v ≤ w → clip v ≤ clip w)

theorem clipInt_eq {lo hi : Int} (h : lo ≤ hi) (v : Int) : clipInt lo hi v = max lo (min v hi) := by
  unfold clipInt clipToRange
  dsimp only [id]
  split_ifs <;> omega

theorem clippedTo_clipInt {lo hi : Int} (h : lo ≤ hi) (kept : Int → Prop) (v : Int) :
    ClippedTo lo hi kept (clipInt lo hi) v := by
  refine ⟨?_, ?_, ?_, ?_⟩
  · rw [clipInt_eq h]; omega
  · rw [clipInt_eq h]; omega
  · rw [clipInt_eq h]; omega
  · intro w _
    rw [clipInt_eq h, clipInt_eq h]
    omega

/-- The sizes whose cast does not mislead: those that `int` holds, and those that are too large
    even so. -/
def CastKept (maxvalue size : Nat) : Prop := size < 2 ^ 31 ∨ (maxvalue : Int) < castInt size

theorem castInt_of_lt {size : Nat} (h : size < 2 ^ 31) : castInt size = size :=
  Int.bmod_eq_of_le (by omega) (by omega)

theorem clipSize_eq_iff {lo hi : Nat} (h : lo < hi) (hhi : hi < 2 ^ 31) (v : Nat) :
    clipSize lo hi v = max lo (min v hi) ↔ CastKept hi v := by
  unfold clipSize clipToRange CastKept
  dsimp only
  by_cases hbig : castInt v > hi
  · rw [if_pos hbig, Int.toNat_natCast, castInt_of_lt hhi, if_neg (by omega)]
    have hv : hi < v := by
      by_contra hle
      rw [castInt_of_lt (by omega)] at hbig
      omega
    refine iff_of_true ?_ (Or.inr hbig)
    omega
  · rw [if_neg hbig, Int.toNat_natCast]
    by_cases hv : v < 2 ^ 31
    · rw [castInt_of_lt hv] at hbig ⊢
      refine iff_of_true ?_ (Or.inl hv)
      split_ifs <;> omega
    · refine iff_of_false ?_ (by omega)
      split_ifs <;> omega

theorem clippedTo_clipSize_iff {lo hi : Nat} (h : lo < hi) (hhi : hi < 2 ^ 31) (v : Nat) :
    ClippedTo lo hi (CastKept hi) (clipSize lo hi) v ↔ CastKept hi v := by
  constructor
  · -- below or above the range, the value is compared with the end of the range
    intro hclip
    have hge := hclip.ge
    have hle := hclip.le
    have hsame := hclip.same
    have hend : ∀ w, lo ≤ w → w ≤ hi → clipSize lo hi w = w ∧ CastKept hi w := by
      intro w hlo hle
      have hkept : CastKept hi w := Or.inl (by omega)
      rw [(clipSize_eq_iff h hhi w).mpr hkept]
      exact ⟨by omega, hkept⟩
    obtain ⟨hlo, hlokept⟩ := hend lo (le_refl _) h.le
    obtain ⟨hhi', hhikept⟩ := hend hi h.le (le_refl _)
    have hbelow := (hclip.monotone lo hlokept).2
    have habove := (hclip.monotone hi hhikept).1
    rw [hlo] at hbelow
    rw [hhi'] at habove
    rw [← clipSize_eq_iff h hhi]
    omega
  · intro hkept
    have hv := (clipSize_eq_iff h hhi v).mpr hkept
    refine ⟨by omega, by omega, by omega, fun w hw => ?_⟩
    rw [hv, (clipSize_eq_iff h hhi w).mpr hw]
    omega

/-! ## All of them -/

/-- Every field is clipped as it should be: to 74 and 50000, to 64 KiB and 1 GiB, to 1 MiB and 1 GiB,
    and to 1 KiB and 4 MiB. -/
structure UserOptions.Clipped (src : UserOptions) : Prop where
  maxOpenFiles : ClippedTo 74 50000 (fun _ => True)
    (fun v => (sanitizeOptions { src with maxOpenFiles := v }).maxOpenFiles) src.maxOpenFiles
  writeBufferSize : ClippedTo 65536 1073741824 (CastKept 1073741824)
    (fun v => (sanitizeOptions { src with writeBufferSize := v }).writeBufferSize)
    src.writeBufferSize
  maxFileSize : ClippedTo 1048576 1073741824 (CastKept 1073741824)
    (fun v => (sanitizeOptions { src with maxFileSize := v }).maxFileSize) src.maxFileSize
  blockSize : ClippedTo 1024 4194304 (CastKept 4194304)
    (fun v => (sanitizeOptions { src with blockSize := v }).blockSize) src.blockSize

/-- **Options are clipped** as they should be exactly when no cast of a size misleads. -/
theorem sanitizeOptions_iff (src : UserOptions) : src.Clipped ↔
    CastKept 1073741824 src.writeBufferSize ∧
    CastKept 1073741824 src.maxFileSize ∧ CastKept 4194304 src.blockSize := by
  have hbuffer := @clippedTo_clipSize_iff 65536 1073741824 (by decide) (by decide)
    src.writeBufferSize
  have hfile := @clippedTo_clipSize_iff 1048576 1073741824 (by decide) (by decide)
    src.maxFileSize
  have hblock := @clippedTo_clipSize_iff 1024 4194304 (by decide) (by decide)
    src.blockSize
  constructor
  · rintro ⟨-, h1, h2, h3⟩
    simp only [sanitizeOptions] at h1 h2 h3
    exact ⟨hbuffer.mp h1, hfile.mp h2, hblock.mp h3⟩
  · rintro ⟨h1, h2, h3⟩
    refine ⟨clippedTo_clipInt (by decide) _ _, ?_, ?_, ?_⟩
    all_goals simp only [sanitizeOptions]
    · exact hbuffer.mpr h1
    · exact hfile.mpr h2
    · exact hblock.mpr h3

/-- A write buffer of 4 GiB and 4 MiB is left as it is, above the maximum of 1 GiB. One of 2 GiB
    becomes 64 KiB, while one of 1 GiB stays. -/
theorem sanitizeOptions_wraps :
    (sanitizeOptions ⟨1000, 2 ^ 32 + 4 * 2 ^ 20, 2 ^ 21, 2 ^ 12⟩).writeBufferSize =
      2 ^ 32 + 4 * 2 ^ 20 ∧
    (sanitizeOptions ⟨1000, 2 ^ 31, 2 ^ 21, 2 ^ 12⟩).writeBufferSize = 65536 ∧
    (sanitizeOptions ⟨1000, 2 ^ 30, 2 ^ 21, 2 ^ 12⟩).writeBufferSize = 2 ^ 30 := by
  decide +kernel

end LevelDB
