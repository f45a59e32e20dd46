/-
  A log with one damaged block.

  Outside the damaged block the reader meets the same physical records as before
  (`fileItems_split`), and a full or a first fragment starts over (`Assembly.run_record`). But the
  type byte of a physical record is the result of `ReadPhysicalRecord`, and the type 5 is `kEof`.
-/
import LevelDB.Log.ReadBack

namespace LevelDB.Log

open List

/-! ## Block by block -/

section Blocks

variable {crc : Checksum} {checksum : Bool}

theorem fileItems_nil (pos : Nat) : fileItems crc checksum pos [] = [] := by
  rw [fileItems_of_short (by decide), blockItems_of_short (by decide)]

theorem fileItems_append (n pos : Nat) {file : Bytes} (h : file.length = n * kBlockSize)
    (rest : Bytes) :
    fileItems crc checksum pos (file ++ rest) =
      fileItems crc checksum pos file ++ fileItems crc checksum (pos + file.length) rest := by
  induction n generalizing pos file with
  | zero =>
    rw [Nat.zero_mul] at h
    rw [eq_nil_of_length_eq_zero h, fileItems_nil]
    rfl
  | succ n ih =>
    rw [Nat.succ_mul] at h
    have hfull : kBlockSize ≤ file.length := by omega
    have hdrop : (file.drop kBlockSize).length = n * kBlockSize := by
      rw [length_drop]
      omega
    rw [fileItems_of_full hfull, fileItems_of_full (by rw [length_append]; omega),
      take_append_of_le_length hfull, drop_append_of_le_length hfull, ih _ hdrop,
      append_assoc, hdrop, h, Nat.add_assoc, Nat.add_comm kBlockSize]

def itemsOfBlock (crc : Checksum) (checksum : Bool) (b : Nat) (file : Bytes) : List Item :=
  blockItems crc checksum (decide ((file.drop (b * kBlockSize)).length < kBlockSize))
    (b * kBlockSize) ((file.drop (b * kBlockSize)).take kBlockSize)

theorem fileItems_split {b : Nat} {file : Bytes} (h : b * kBlockSize ≤ file.length) :
    fileItems crc checksum 0 file =
      fileItems crc checksum 0 (file.take (b * kBlockSize)) ++
        (itemsOfBlock crc checksum b file ++
          fileItems crc checksum ((b + 1) * kBlockSize) (file.drop ((b + 1) * kBlockSize))) := by
  have htake : (file.take (b * kBlockSize)).length = b * kBlockSize := by
    rw [length_take, Nat.min_eq_left h]
  conv_lhs => rw [← List.take_append_drop (b * kBlockSize) file]
  rw [fileItems_append b 0 htake, htake, Nat.zero_add, Nat.succ_mul, ← drop_drop]
  congr 1
  unfold itemsOfBlock
  generalize file.drop (b * kBlockSize) = rest
  rw [fileItems]
  by_cases hshort : rest.length < kBlockSize
  · rw [if_pos hshort, drop_eq_nil_of_le hshort.le, fileItems_nil]
  · rw [if_neg hshort]

end Blocks

/-! ## What an item can do -/

namespace Assembly

theorem step_spec (s : Assembly) (it : Item) :
    (∃ out, (s.step it).records = s.records ++ out ∧
      ∀ p ∈ out, p.1 = it.offset ∨ p.1 = s.prospectiveRecordOffset) ∧
    ((s.step it).prospectiveRecordOffset = 0 ∨
      (s.step it).prospectiveRecordOffset = s.prospectiveRecordOffset ∨
      (s.step it).prospectiveRecordOffset = it.offset) ∧
    (s.step it).stopped = (s.stopped || it.code == kEof) := by
  obtain ⟨code, fragment, position, new⟩ := it
  obtain ⟨inFragmentedRecord, scratch, prospectiveRecordOffset, records, reports, stopped⟩ := s
  have hsame : ∀ {s' : Assembly}, s'.records = records →
      ∃ out, s'.records = records ++ out ∧
        ∀ p ∈ out, p.1 = Item.offset ⟨code, fragment, position, new⟩ ∨
          p.1 = prospectiveRecordOffset :=
    fun h => ⟨[], h.trans (append_nil _).symm, by simp⟩
  cases stopped with
  | true => exact ⟨hsame rfl, Or.inr (Or.inl rfl), rfl⟩
  | false =>
    rw [step, if_neg Bool.false_ne_true]
    rcases code with _ | _ | _ | _ | _ | _ | _ | code
    · exact ⟨hsame rfl, Or.inr (Or.inl rfl), rfl⟩
    · obtain ⟨_, hpart⟩ := reportPartial_eq ⟨inFragmentedRecord, scratch,
        prospectiveRecordOffset, records, reports ++ new, false⟩ "partial record without end(1)"
      dsimp only
      rw [hpart]
      exact ⟨⟨[(_, _)], rfl, by simp⟩, Or.inl rfl, rfl⟩
    · obtain ⟨_, hpart⟩ := reportPartial_eq ⟨inFragmentedRecord, scratch,
        prospectiveRecordOffset, records, reports ++ new, false⟩ "partial record without end(2)"
      dsimp only
      rw [hpart]
      exact ⟨hsame rfl, Or.inr (Or.inr rfl), rfl⟩
    · cases inFragmentedRecord with
      | true => exact ⟨hsame rfl, Or.inr (Or.inl rfl), rfl⟩
      | false => exact ⟨hsame rfl, Or.inr (Or.inl rfl), rfl⟩
    · cases inFragmentedRecord with
      | true => exact ⟨⟨[(_, _)], rfl, by simp⟩, Or.inl rfl, rfl⟩
      | false => exact ⟨hsame rfl, Or.inr (Or.inl rfl), rfl⟩
    · exact ⟨hsame rfl, Or.inr (Or.inl rfl), rfl⟩
    · cases inFragmentedRecord with
      | true => exact ⟨hsame rfl, Or.inr (Or.inl rfl), rfl⟩
      | false => exact ⟨hsame rfl, Or.inr (Or.inl rfl), rfl⟩
    · exact ⟨hsame rfl, Or.inr (Or.inl rfl), rfl⟩

theorem run_cons (s : Assembly) (it : Item) (items : List Item) :
    s.run (it :: items) = (s.step it).run items := rfl

theorem run_stopped (s : Assembly) (items : List Item) :
    (s.run items).stopped = true ↔ s.stopped = true ∨ ∃ it ∈ items, it.code = kEof := by
  induction items generalizing s with
  | nil => simp [run]
  | cons it items ih =>
    rw [run_cons, ih, (s.step_spec it).2.2, Bool.or_eq_true, beq_iff_eq, or_assoc]
    simp only [exists_mem_cons_iff]

theorem run_extends (s : Assembly) (items : List Item) :
    ∃ out, (s.run items).records = s.records ++ out := by
  induction items generalizing s with
  | nil => exact ⟨[], (append_nil _).symm⟩
  | cons it items ih =>
    obtain ⟨⟨out, hout, -⟩, -, -⟩ := s.step_spec it
    obtain ⟨rest, hrest⟩ := ih (s.step it)
    exact ⟨out ++ rest, by rw [run_cons, hrest, hout, append_assoc]⟩

theorem run_below {c : Nat} {s : Assembly} (hs : s.prospectiveRecordOffset < c)
    (hrecords : ∀ p ∈ s.records, p.1 < c) {items : List Item}
    (hitems : ∀ it ∈ items, it.offset < c) :
    ∀ p ∈ (s.run items).records, p.1 < c := by
  induction items generalizing s with
  | nil => exact hrecords
  | cons it items ih =>
    obtain ⟨⟨out, hout, hoffset⟩, hprospective, -⟩ := s.step_spec it
    have hit := hitems it mem_cons_self
    apply ih
    · omega
    · intro p hp
      rw [hout] at hp
      obtain hp | hp := mem_append.mp hp
      · exact hrecords p hp
      · have := hoffset p hp
        omega
    · exact fun it hit => hitems it (mem_cons_of_mem _ hit)

end Assembly

section Offsets

variable {crc : Checksum} {checksum : Bool}

theorem blockItems_offset {eof : Bool} {pos : Nat} {buffer : Bytes} :
    ∀ it ∈ blockItems crc checksum eof pos buffer, it.offset < pos + buffer.length := by
  have hheader : 0 < kHeaderSize := by decide
  fun_induction blockItems crc checksum eof pos buffer with
  | case1 => simp
  | case2 => simp
  | case3 pos buffer =>
    intro it hit
    rw [mem_singleton.mp hit]
    show pos + buffer.length - kHeaderSize - 0 < _
    omega
  | case4 pos buffer =>
    intro it hit
    rw [mem_singleton.mp hit]
    show pos + buffer.length - kHeaderSize - 0 < _
    omega
  | case5 pos buffer =>
    intro it hit
    rw [mem_singleton.mp hit]
    show pos + buffer.length - kHeaderSize - 0 < _
    omega
  | case6 pos buffer type length hhead hbody _ _ ih =>
    intro it hit
    obtain rfl | hit := mem_cons.mp hit
    · unfold Item.offset
      dsimp only
      rw [length_take, length_drop]
      omega
    · have := ih it hit
      rw [length_drop] at this
      omega

theorem fileItems_offset {pos : Nat} {file : Bytes} :
    ∀ it ∈ fileItems crc checksum pos file, it.offset < pos + file.length := by
  induction h : file.length using Nat.strong_induction_on generalizing pos file with
  | h n ih =>
    intro it hit
    obtain hshort | hfull := Nat.lt_or_ge file.length kBlockSize
    · rw [fileItems_of_short hshort] at hit
      exact h ▸ blockItems_offset it hit
    · have hB : 0 < kBlockSize := by decide
      rw [fileItems_of_full hfull] at hit
      obtain hit | hit := mem_append.mp hit
      · have := blockItems_offset it hit
        rw [length_take] at this
        omega
      · have := ih (file.length - kBlockSize) (by omega) length_drop it hit
        omega

end Offsets

/-! ## Damage -/

/-- The file with other bytes in block `b`. -/
def damage (b : Nat) (new : Nat → UInt8) (file : Bytes) : Bytes :=
  file.mapIdx fun i byte => if i / kBlockSize = b then new i else byte

section Damage

variable (b : Nat) (new : Nat → UInt8) (file : Bytes)

@[simp] theorem length_damage : (damage b new file).length = file.length :=
  length_mapIdx

theorem getElem?_damage (i : Nat) (h : i / kBlockSize ≠ b) :
    (damage b new file)[i]? = file[i]? := by
  unfold damage
  rw [getElem?_mapIdx]
  simp [h]

theorem take_damage : (damage b new file).take (b * kBlockSize) = file.take (b * kBlockSize) := by
  apply ext_getElem?
  intro i
  rw [getElem?_take, getElem?_take]
  split_ifs with h
  · apply getElem?_damage
    have := (Nat.div_lt_iff_lt_mul (show 0 < kBlockSize by decide)).mpr h
    omega
  · rfl

theorem drop_damage : (damage b new file).drop ((b + 1) * kBlockSize) =
    file.drop ((b + 1) * kBlockSize) := by
  apply ext_getElem?
  intro i
  rw [getElem?_drop, getElem?_drop]
  apply getElem?_damage
  have := (Nat.le_div_iff_mul_le (show 0 < kBlockSize by decide)).mpr
    (Nat.le_add_right ((b + 1) * kBlockSize) i)
  omega

end Damage

/-! ## After a block -/

section After

variable {crc : Checksum} {checksum : Bool} {pos c : Nat}

theorem itemsOf_code {fs : List Fragment} : ∀ it ∈ itemsOf pos fs, it.code ≠ kEof := by
  induction fs generalizing pos with
  | nil => simp [itemsOf]
  | cons f fs ih =>
    intro it hit
    obtain rfl | hit := mem_cons.mp hit
    · show f.type.toByte.toNat ≠ kEof
      cases f.type <;> decide
    · exact ih it hit

theorem run_layout (records : List Bytes) {s : Assembly} (hs : s.stopped = false) :
    (s.run (itemsOf pos (layout pos records).flatten)).records = s.records ++ placed pos records := by
  induction records generalizing pos s with
  | nil => exact (append_nil _).symm
  | cons record records ih =>
    obtain ⟨reason, hrun⟩ : ∃ reason, s.run (itemsOf pos (fragmentsOf pos record)) =
        (s.reportPartial reason).emit (startAt pos) record :=
      Assembly.run_record (fragmentsOf_spec pos record).1 hs
    obtain ⟨reports, hpart⟩ := s.reportPartial_eq reason
    rw [layout, flatten_cons, itemsOf_append, Assembly.run_append, hrun, hpart]
    rw [ih (s := Assembly.emit { s with reports := reports } (startAt pos) record) hs, placed]
    exact append_assoc _ _ _

theorem layout_ne_zero (pos : Nat) (records : List Bytes) :
    ∀ f ∈ (layout pos records).flatten, f.type ≠ .zero := by
  induction records generalizing pos with
  | nil => simp [layout]
  | cons record records ih =>
    intro f hf
    rw [layout, flatten_cons] at hf
    obtain hf | hf := mem_append.mp hf
    · exact (fragmentsOf_spec pos record).1.ne_zero f hf
    · exact ih _ f hf

theorem fileItems_drop {fs : List Fragment} (hlaid : Laid pos fs)
    (hzero : ∀ f ∈ fs, f.type ≠ .zero) (hc : startAt pos = c) (hblock : c % kBlockSize = 0) :
    fileItems crc checksum c ((laidBytes crc pos fs).drop (c - pos)) = itemsOf pos fs := by
  have hall : itemsFrom crc checksum pos (laidBytes crc pos fs) = itemsOf pos fs := by
    have hitems : itemsFrom crc checksum pos (laidBytes crc pos fs ++ []) = _ :=
      itemsFrom_laid hlaid hzero []
    rwa [itemsFrom_nil, append_nil, append_nil] at hitems
  rw [← hall]
  cases fs with
  | nil => rw [laidBytes, drop_nil, fileItems_nil, itemsFrom_nil]
  | cons f fs =>
    have hpad : c - pos = padAt pos := by
      unfold startAt at hc
      omega
    rw [laidBytes, itemsFrom_pad, hc, itemsFrom_block hblock, hpad,
      drop_left' length_replicate]

theorem startAt_le (hblock : c % kBlockSize = 0) (hpos : pos ≤ c) : startAt pos ≤ c := by
  unfold startAt padAt
  split_ifs with h
  · unfold kBlockSize kHeaderSize at *
    omega
  · omega

theorem laid_split {fs : List Fragment} (hlaid : Laid pos fs) (hblock : c % kBlockSize = 0)
    (hpos : pos ≤ c) (hstop : c < stop pos fs) :
    ∃ fs₁ fs₂, fs = fs₁ ++ fs₂ ∧ stop pos fs₁ ≤ c ∧ startAt (stop pos fs₁) = c := by
  induction fs generalizing pos with
  | nil => exact absurd hstop (not_lt.mpr hpos)
  | cons f fs ih =>
    obtain ⟨hroom, hlaid⟩ := hlaid
    have hle := startAt_le hblock hpos
    by_cases hstart : startAt pos = c
    · exact ⟨[], f :: fs, rfl, hpos, hstart⟩
    · have hnext : f.stop pos ≤ c := by
        unfold Fragment.stop
        unfold kBlockSize at *
        omega
      obtain ⟨fs₁, fs₂, rfl, hfs₁, hfs₂⟩ := ih hlaid hnext hstop
      exact ⟨f :: fs₁, fs₂, rfl, hfs₁, hfs₂⟩

/-- The records that start at `c` or later. -/
def startsFrom (c pos : Nat) (records : List Bytes) : List (Nat × Bytes) :=
  (placed pos records).filter fun p => decide (c ≤ p.1)

theorem startAt_lt_stop {begins : Bool} {fs : List Fragment} {record : Bytes}
    (h : Spells begins fs record) : startAt pos < stop pos fs := by
  have hheader : 0 < kHeaderSize := by decide
  have hcons : ∀ (f : Fragment) (fs : List Fragment), startAt pos < stop pos (f :: fs) := by
    intro f fs
    have := pos_add_length_laidBytes crc32c (f.stop pos) fs
    rw [stop]
    unfold Fragment.stop at *
    omega
  cases h with
  | ends => exact hcons _ _
  | goesOn => exact hcons _ _

theorem le_startAt (pos : Nat) : pos ≤ startAt pos := Nat.le_add_right _ _

theorem le_placed (records : List Bytes) : ∀ p ∈ placed pos records, startAt pos ≤ p.1 := by
  induction records generalizing pos with
  | nil => simp [placed]
  | cons record records ih =>
    intro p hp
    obtain rfl | hp := mem_cons.mp hp
    · exact le_rfl
    · have hstop : startAt pos < stop pos (fragmentsOf pos record) :=
        startAt_lt_stop (fragmentsOf_spec pos record).1
      exact hstop.le.trans ((le_startAt _).trans (ih p hp))

theorem startsFrom_all (records : List Bytes) (h : c ≤ startAt pos) :
    startsFrom c pos records = placed pos records :=
  filter_eq_self.mpr fun p hp => decide_eq_true (h.trans (le_placed records p hp))

theorem run_after (records : List Bytes) (hblock : c % kBlockSize = 0) (hpos : pos ≤ c)
    {s : Assembly} (hs : s.stopped = false) :
    ∃ out, (s.run (fileItems crc checksum c
        ((laidBytes crc pos (layout pos records).flatten).drop (c - pos)))).records =
      s.records ++ out ++ startsFrom c pos records := by
  induction records generalizing pos with
  | nil =>
    refine ⟨[], ?_⟩
    rw [layout, flatten_nil, laidBytes, drop_nil, fileItems_nil]
    simp [Assembly.run, startsFrom, placed]
  | cons record records ih =>
    obtain ⟨hspells, hlaid⟩ := fragmentsOf_spec pos record
    by_cases hstart : startAt pos = c
    · -- the record starts there
      refine ⟨[], ?_⟩
      rw [fileItems_drop (laid_layout pos _) (layout_ne_zero pos _) hstart hblock, run_layout _ hs,
        startsFrom_all _ hstart.ge, append_nil]
    have hstart' : startAt pos < c := lt_of_le_of_ne (startAt_le hblock hpos) hstart
    have hhead : startsFrom c pos (record :: records) =
        startsFrom c (stop pos (fragmentsOf pos record)) records :=
      filter_cons_of_neg (by simpa using hstart')
    rw [hhead]
    have hall := laid_layout pos (record :: records)
    have hzero := layout_ne_zero pos (record :: records)
    rw [layout, flatten_cons] at hall hzero ⊢
    -- what is dropped of the fragments before `c`
    have hdrop : ∀ fs gs : List Fragment, stop pos fs ≤ c →
        (laidBytes crc pos (fs ++ gs)).drop (c - pos) =
          (laidBytes crc (stop pos fs) gs).drop (c - stop pos fs) := by
      intro fs gs hle
      have hsize := pos_add_length_laidBytes crc pos fs
      rw [laidBytes_append, drop_append, drop_eq_nil_of_le (by omega), nil_append]
      congr 1
      omega
    obtain hacross | hbefore := Nat.lt_or_ge c (stop pos (fragmentsOf pos record))
    · obtain ⟨fs₁, fs₂, hfs, hle, hc⟩ := laid_split hlaid hblock hpos hacross
      have hend : stop (stop pos fs₁) fs₂ = stop pos (fragmentsOf pos record) := by
        rw [hfs, stop_append]
      generalize stop pos (fragmentsOf pos record) = next at *
      rw [hfs, append_assoc] at hall hzero ⊢
      obtain ⟨out, hout⟩ := s.run_extends (itemsOf (stop pos fs₁) fs₂)
      have hs₁ : (s.run (itemsOf (stop pos fs₁) fs₂)).stopped = false := by
        rw [← Bool.not_eq_true, Assembly.run_stopped, hs]
        rintro (h | ⟨it, hit, hcode⟩)
        · cases h
        · exact itemsOf_code it hit hcode
      refine ⟨out, ?_⟩
      rw [hdrop _ _ hle, fileItems_drop ((laid_append _ _ _).mp hall).2
          (fun f hf => hzero f (mem_append_right _ hf)) hc hblock,
        itemsOf_append, hend, Assembly.run_append, run_layout _ hs₁, hout,
        startsFrom_all records (hacross.le.trans (le_startAt _))]
    · rw [hdrop _ _ hbefore]
      exact ih hbefore

end After

/-! ## Records without a byte in the block -/

/-- The records none of whose bytes lie in block `b`, with the places where they start. -/
def untouched (b : Nat) : Nat → List Bytes → List (Nat × Bytes)
  | _, [] => []
  | pos, record :: records =>
    let rest := untouched b (stop pos (fragmentsOf pos record)) records
    if stop pos (fragmentsOf pos record) ≤ b * kBlockSize ∨ (b + 1) * kBlockSize ≤ startAt pos then
      (startAt pos, record) :: rest
    else rest

section Untouched

variable {b pos k : Nat}

theorem untouched_cons (record : Bytes) (records : List Bytes)
    (h : b * kBlockSize < stop pos (fragmentsOf pos record)) :
    untouched b pos (record :: records) =
      (if (b + 1) * kBlockSize ≤ startAt pos then [(startAt pos, record)] else []) ++
        untouched b (stop pos (fragmentsOf pos record)) records := by
  rw [untouched]
  by_cases hc : (b + 1) * kBlockSize ≤ startAt pos
  · rw [if_pos (Or.inr hc), if_pos hc]
    rfl
  · rw [if_neg (by omega), if_neg hc]
    rfl

theorem startsFrom_cons (c pos : Nat) (record : Bytes) (records : List Bytes) :
    startsFrom c pos (record :: records) =
      (if c ≤ startAt pos then [(startAt pos, record)] else []) ++
        startsFrom c (stop pos (fragmentsOf pos record)) records := by
  unfold startsFrom
  rw [placed, filter_cons]
  by_cases hc : c ≤ startAt pos
  · rw [decide_eq_true hc, if_pos rfl, if_pos hc]
    rfl
  · rw [decide_eq_false hc, if_neg Bool.false_ne_true, if_neg hc]
    rfl

theorem untouched_after (records : List Bytes) (h : b * kBlockSize < pos) :
    untouched b pos records = startsFrom ((b + 1) * kBlockSize) pos records := by
  induction records generalizing pos with
  | nil => rfl
  | cons record records ih =>
    have hstop : startAt pos < stop pos (fragmentsOf pos record) :=
      startAt_lt_stop (fragmentsOf_spec pos record).1
    have hnext : b * kBlockSize < stop pos (fragmentsOf pos record) :=
      h.trans_le ((le_startAt pos).trans hstop.le)
    rw [untouched_cons record records hnext, startsFrom_cons, ih hnext]

theorem untouched_eq (records : List Bytes)
    (hk : ∀ j ≤ records.length, endOf pos (records.take j) ≤ b * kBlockSize ↔ j ≤ k) :
    untouched b pos records =
      placed pos (records.take k) ++ startsFrom ((b + 1) * kBlockSize) pos records := by
  induction records generalizing pos k with
  | nil =>
    rw [take_nil]
    rfl
  | cons record records ih =>
    have hstop : startAt pos < stop pos (fragmentsOf pos record) :=
      startAt_lt_stop (fragmentsOf_spec pos record).1
    have hone := hk 1 (Nat.succ_le_succ (Nat.zero_le _))
    rw [take_succ_cons, take_zero, endOf_cons] at hone
    obtain hlt | hle := Nat.lt_or_ge (b * kBlockSize) (stop pos (fragmentsOf pos record))
    · have hzero : k = 0 := by
        have : ¬1 ≤ k := fun h => absurd (hone.mpr h) (not_le.mpr hlt)
        omega
      rw [untouched_cons record records hlt, untouched_after records hlt, ← startsFrom_cons, hzero]
      rfl
    · obtain ⟨k, rfl⟩ := Nat.exists_eq_add_of_le' (hone.mp hle)
      have hnot : ¬(b + 1) * kBlockSize ≤ startAt pos := by
        rw [Nat.succ_mul]
        omega
      have hrest : ∀ j ≤ records.length,
          endOf (stop pos (fragmentsOf pos record)) (records.take j) ≤ b * kBlockSize ↔ j ≤ k := by
        intro j hj
        rw [← endOf_cons, ← take_succ_cons, hk (j + 1) (Nat.succ_le_succ hj),
          Nat.succ_le_succ_iff]
      rw [startsFrom_cons, if_neg hnot, nil_append, take_succ_cons, placed,
        cons_append, ← ih hrest]
      exact if_pos (Or.inl hle)

theorem mem_untouched {records : List Bytes} {p : Nat × Bytes} (hp : p ∈ placed pos records)
    (hle : (b + 1) * kBlockSize ≤ p.1) : p ∈ untouched b pos records := by
  induction records generalizing pos with
  | nil => cases hp
  | cons record records ih =>
    rw [untouched]
    obtain rfl | hp := mem_cons.mp hp
    · rw [if_pos (Or.inr hle)]
      exact mem_cons_self
    · split_ifs
      · exact mem_cons_of_mem _ (ih hp)
      · exact ih hp

theorem untouched_sublist (records : List Bytes) :
    (untouched b pos records).Sublist (placed pos records) := by
  induction records generalizing pos with
  | nil => exact List.Sublist.refl _
  | cons record records ih =>
    rw [untouched, placed]
    split_ifs
    · exact ih.cons_cons _
    · exact ih.cons _

end Untouched

/-! ## Reading a damaged log -/

section ReadDamaged

variable (crc : Checksum) (checksum : Bool) (records : List Bytes) (b : Nat) (new : Nat → UInt8)

theorem readLog_damage (h : b * kBlockSize ≤ (logFile crc records).length) :
    ∃ k, (∀ j ≤ records.length, endOf 0 (records.take j) ≤ b * kBlockSize ↔ j ≤ k) ∧
      ∃ s : Assembly, Assembly.start.run
          (fileItems crc checksum 0 ((logFile crc records).take (b * kBlockSize))) = s ∧
        s.records = placed 0 (records.take k) ∧ s.stopped = false ∧
        ∃ s', (s.run (itemsOfBlock crc checksum b (damage b new (logFile crc records)))).run
            (fileItems crc checksum ((b + 1) * kBlockSize)
              ((logFile crc records).drop ((b + 1) * kBlockSize))) = s' ∧
          readLog crc checksum (damage b new (logFile crc records)) =
            some (s'.records, s'.reports) := by
  obtain ⟨k, -, hends, s, hrun, hrec, -, hs⟩ :=
    run_records crc checksum 0 records (b * kBlockSize) (s := .start) rfl rfl
  rw [itemsFrom_block (Nat.zero_mod _)] at hrun
  rw [Nat.zero_add] at hends
  refine ⟨k, hends, s, hrun, hrec, hs, _, rfl, ?_⟩
  rw [readLog_eq, fileItems_split (b := b) (by rwa [length_damage]), take_damage, drop_damage,
    Assembly.run_append, Assembly.run_append]
  exact hrun ▸ rfl

theorem untouched_returned
    (h : (∀ it ∈ itemsOfBlock crc checksum b (damage b new (logFile crc records)),
      it.code ≠ kEof) ∨ ∀ p ∈ placed 0 records, p.1 < (b + 1) * kBlockSize) :
    ∃ out reports,
      readLog crc checksum (damage b new (logFile crc records)) = some (out, reports) ∧
        (untouched b 0 records).Sublist out := by
  by_cases hlen : b * kBlockSize ≤ (logFile crc records).length
  · obtain ⟨k, hends, s, -, hrec, hs, s', hs', hread⟩ :=
      readLog_damage crc checksum records b new hlen
    refine ⟨_, _, hread, ?_⟩
    obtain ⟨out, hout⟩ :=
      s.run_extends (itemsOfBlock crc checksum b (damage b new (logFile crc records)))
    rw [untouched_eq records hends, ← hrec]
    obtain hcode | hstart := h
    · have hgoes : (s.run
          (itemsOfBlock crc checksum b (damage b new (logFile crc records)))).stopped = false := by
        rw [← Bool.not_eq_true, Assembly.run_stopped, hs]
        rintro (h | ⟨it, hit, heof⟩)
        · cases h
        · exact hcode it hit heof
      obtain ⟨more, hafter⟩ : ∃ more, s'.records =
          (s.run (itemsOfBlock crc checksum b (damage b new (logFile crc records)))).records ++
            more ++ startsFrom ((b + 1) * kBlockSize) 0 records := by
        rw [← hs']
        exact run_after records (Nat.mul_mod_left (b + 1) kBlockSize) (Nat.zero_le _) hgoes
      rw [hafter, hout]
      exact ((sublist_append_left _ _).trans (sublist_append_left _ _)).append_right _
    · have hnone : startsFrom ((b + 1) * kBlockSize) 0 records = [] :=
        filter_eq_nil_iff.mpr fun p hp => by simpa using hstart p hp
      obtain ⟨more, hmore⟩ := Assembly.run_extends
        (s.run (itemsOfBlock crc checksum b (damage b new (logFile crc records)))) _
      rw [hnone, append_nil, ← hs', hmore, hout, append_assoc]
      exact sublist_append_left _ _
  · have hsame : damage b new (logFile crc records) = logFile crc records := by
      have htake := take_damage b new (logFile crc records)
      rwa [take_of_length_le (by rw [length_damage]; omega),
        take_of_length_le (by omega)] at htake
    exact ⟨_, _, hsame ▸ readLog_logFile crc checksum records, untouched_sublist records⟩

theorem returned_below
    (h : ∃ it ∈ itemsOfBlock crc checksum b (damage b new (logFile crc records)), it.code = kEof)
    {out : List (Nat × Bytes)} {reports : List Report}
    (hread : readLog crc checksum (damage b new (logFile crc records)) = some (out, reports)) :
    ∀ p ∈ out, p.1 < (b + 1) * kBlockSize := by
  have hB : 0 < kBlockSize := by decide
  have hlen : b * kBlockSize ≤ (logFile crc records).length := by
    by_contra hshort
    obtain ⟨it, hit, -⟩ := h
    unfold itemsOfBlock at hit
    rw [drop_eq_nil_of_le (by rw [length_damage]; omega), take_nil,
      blockItems_of_short (by decide)] at hit
    cases hit
  obtain ⟨k, -, s, hrun, -, -, s', hs', hread'⟩ :=
    readLog_damage crc checksum records b new hlen
  have hstop : (s.run
      (itemsOfBlock crc checksum b (damage b new (logFile crc records)))).stopped = true :=
    (Assembly.run_stopped _ _).mpr (Or.inr h)
  rw [Assembly.run_of_stopped hstop] at hs'
  have hout : out = s'.records := congrArg Prod.fst (Option.some.inj (hread.symm.trans hread'))
  rw [hout, ← hs', ← hrun, ← Assembly.run_append]
  apply Assembly.run_below
  · show 0 < (b + 1) * kBlockSize
    rw [Nat.succ_mul]
    omega
  · intro p hp
    cases hp
  · intro it hit
    rw [Nat.succ_mul]
    obtain hit | hit := mem_append.mp hit
    · have := fileItems_offset it hit
      rw [length_take] at this
      omega
    · have := blockItems_offset it hit
      rw [length_take] at this
      omega

end ReadDamaged

/-- The damage stays in the block exactly when the reader meets no physical record of type
    `kEof` there, or no record starts after it. -/
theorem readLog_damage_iff (crc : Checksum) (checksum : Bool) (sessions : List (List Bytes))
    (b : Nat) (new : Nat → UInt8) :
    (∃ out reports,
      readLog crc checksum (damage b new (writeSessions crc [] sessions)) = some (out, reports) ∧
        (untouched b 0 sessions.flatten).Sublist out) ↔
      (∀ it ∈ itemsOfBlock crc checksum b (damage b new (writeSessions crc [] sessions)),
        it.code ≠ kEof) ∨
      ∀ p ∈ placed 0 sessions.flatten, p.1 < (b + 1) * kBlockSize := by
  rw [writeSessions_nil]
  constructor
  · rintro ⟨out, reports, hread, hsub⟩
    by_contra hnot
    rw [not_or] at hnot
    obtain ⟨hcode, hstart⟩ := hnot
    push Not at hcode hstart
    obtain ⟨p, hp, hle⟩ := hstart
    have hbelow := returned_below crc checksum sessions.flatten b new hcode hread
    exact absurd (hbelow p (hsub.subset (mem_untouched hp hle))) (not_lt.mpr hle)
  · exact untouched_returned crc checksum sessions.flatten b new

/-! ## A damaged block that ends the log -/

def typeFive (crc : Checksum) : Bytes := encodeFixed32 (mask (crc.value [5])) ++ [0, 0, 5]

def twoBlocks : List Bytes := [List.replicate (kBlockSize - kHeaderSize) 0, [1]]

theorem fragmentsOf_full {pos : Nat} {record : Bytes}
    (h : startAt pos % kBlockSize + kHeaderSize + record.length ≤ kBlockSize) :
    fragmentsOf pos record = [⟨.full, record⟩] := by
  unfold fragmentsOf fragmentsLoop
  dsimp only
  generalize hn : (if record.length < kBlockSize - startAt pos % kBlockSize - kHeaderSize then
    record.length else kBlockSize - startAt pos % kBlockSize - kHeaderSize) = n
  have hall : n = record.length := by
    split_ifs at hn
    · exact hn.symm
    · omega
  rw [hall, Nat.sub_self, if_pos rfl, take_length, beq_self_eq_true]
  rfl

theorem stop_twoBlocks : stop 0 (fragmentsOf 0 (List.replicate (kBlockSize - kHeaderSize) 0)) =
    kBlockSize := by
  rw [fragmentsOf_full (by rw [length_replicate]; decide), stop, stop, Fragment.stop,
    length_replicate]
  decide

theorem typeFive_item (crc : Checksum) (checksum : Bool) {b : Nat} {file : Bytes}
    (h : (file.drop (b * kBlockSize)).take kHeaderSize = typeFive crc) :
    ∃ it ∈ itemsOfBlock crc checksum b file, it.code = kEof := by
  unfold itemsOfBlock
  generalize file.drop (b * kBlockSize) = block at h ⊢
  have hbuffer : block.take kBlockSize = encodeFixed32 (mask (crc.value [5])) ++
      (0 :: 0 :: 5 :: (block.take kBlockSize).drop kHeaderSize) := by
    have hhead : (block.take kBlockSize).take kHeaderSize = typeFive crc := by
      rw [take_take, Nat.min_eq_left kHeaderSize_lt.le, h]
    conv_lhs => rw [← List.take_append_drop kHeaderSize (block.take kBlockSize), hhead]
    rw [typeFive, append_assoc]
    rfl
  rw [hbuffer]
  generalize (block.take kBlockSize).drop kHeaderSize = rest
  have hfits : kHeaderSize + 0 ≤
      (encodeFixed32 (mask (crc.value [5])) ++ (0 :: 0 :: 5 :: rest)).length := by
    simp [kHeaderSize]
    omega
  have htype : charToUnsigned
      ((encodeFixed32 (mask (crc.value [5])) ++ (0 :: 0 :: 5 :: rest)).getD 6 0) = kEof :=
    congrArg charToUnsigned (getD_header _ _ 2)
  rw [blockItems_cons hfits htype]
  · exact ⟨_, mem_cons_self, rfl⟩
  · rw [getD_header _ _ 0, getD_header _ _ 1]
    exact length_bytes (n := 0) (by decide)
  · decide
  · rw [decodeFixed32_encodeFixed32, unmask_mask, drop_append, length_encodeFixed32,
      drop_eq_nil_of_le (by simp)]
    rfl

theorem take_damage_first (new : Nat → UInt8) {file : Bytes} {n : Nat} (hn : n ≤ kBlockSize)
    (hfile : n ≤ file.length) : (damage 0 new file).take n = (List.range n).map new := by
  apply ext_getElem?
  intro i
  unfold damage
  rw [getElem?_take, getElem?_map, getElem?_mapIdx]
  by_cases hi : i < n
  · have hblock : i / kBlockSize = 0 := Nat.div_eq_of_lt (hi.trans_le hn)
    rw [if_pos hi, getElem?_range hi, getElem?_eq_getElem (hi.trans_le hfile)]
    exact congrArg some (if_pos hblock)
  · rw [if_neg hi, getElem?_eq_none (by simpa using hi)]
    rfl

theorem placed_twoBlocks : placed 0 twoBlocks =
    [(0, List.replicate (kBlockSize - kHeaderSize) 0), (kBlockSize, [1])] := by
  rw [twoBlocks, placed, stop_twoBlocks, placed, placed]
  exact congrArg₂ (fun a b => [(a, _), (b, _)]) (by decide) (by decide)

/-- A first block whose bytes are replaced by a physical record of type 5: the record in the
    second block is not returned. -/
theorem damage_ends_log :
    (kBlockSize, [1]) ∈ untouched 0 0 twoBlocks ∧
      ∃ out reports, readLog crc32c true (damage 0 (fun i => (typeFive crc32c).getD i 0)
          (writeSessions crc32c [] [twoBlocks])) = some (out, reports) ∧
        (kBlockSize, [1]) ∉ out := by
  have hlast : (kBlockSize, [1]) ∈ placed 0 twoBlocks := by
    rw [placed_twoBlocks]
    exact mem_cons_of_mem _ mem_cons_self
  have hafter : (0 + 1) * kBlockSize ≤ kBlockSize := by decide
  refine ⟨mem_untouched hlast hafter, _, _, readLog_eq _ _ _, ?_⟩
  rw [writeSessions_nil, flatten_singleton]
  intro hmem
  have hlong : kHeaderSize ≤ (logFile crc32c twoBlocks).length := by
    have hend := le_endOf kBlockSize [[1]]
    rw [length_logFile, twoBlocks, endOf_cons, stop_twoBlocks]
    exact kHeaderSize_lt.le.trans hend
  have hhead : ((damage 0 (fun i => (typeFive crc32c).getD i 0) (logFile crc32c twoBlocks)).drop
      (0 * kBlockSize)).take kHeaderSize = typeFive crc32c := by
    rw [Nat.zero_mul, drop_zero, take_damage_first _ kHeaderSize_lt.le hlong]
    decide +kernel
  have hbelow := returned_below crc32c true twoBlocks 0 _ (typeFive_item crc32c true hhead)
    (readLog_eq _ _ _) _ hmem
  exact absurd hbelow (not_lt.mpr hafter)

end LevelDB.Log
