/-
  What the reader makes of a file that the writer has written, cut anywhere.

  A physical record that is complete is one item (`blockItems_emit`), and one that is cut off is
  none (`blockItems_emit_cut`). So a cut file has the items of the fragments that end at or before
  the cut (`run_cut`), and of the records those that are whole.
-/
import LevelDB.Db.Disk
import LevelDB.Log.Reader

namespace LevelDB.Log

open List

variable (crc : Checksum) {checksum : Bool}

/-! ## One physical record -/

theorem length_bytes {n : Nat} (h : n < 2 ^ 16) :
    (UInt8.ofNat (n &&& 0xff)).toNat ||| (UInt8.ofNat (n >>> 8)).toNat <<< 8 = n := by
  have hlow : n &&& 0xff = n % 2 ^ 8 := Nat.and_two_pow_sub_one_eq_mod n 8
  have hhigh : n >>> 8 = n / 2 ^ 8 := Nat.shiftRight_eq_div_pow n 8
  rw [hlow, hhigh, UInt8.toNat_ofNat_of_lt' (show n % 2 ^ 8 < 2 ^ 8 by omega),
    UInt8.toNat_ofNat_of_lt' (show n / 2 ^ 8 < 2 ^ 8 by omega), Nat.or_comm,
    ← Nat.shiftLeft_add_eq_or_of_lt (Nat.mod_lt _ (by decide)), Nat.shiftLeft_eq]
  omega

theorem charToUnsigned_toByte (t : RecordType) : charToUnsigned t.toByte = t.toByte.toNat := by
  cases t <;> rfl

theorem emitPhysicalRecord_append (t : RecordType) (payload rest : Bytes) :
    emitPhysicalRecord crc t payload ++ rest =
      encodeFixed32 (mask (crc.extend (crc.value [t.toByte]) payload)) ++
        (UInt8.ofNat (payload.length &&& 0xff) :: UInt8.ofNat (payload.length >>> 8) ::
          t.toByte :: (payload ++ rest)) := by
  simp [emitPhysicalRecord]

theorem getD_header (value : UInt32) (tail : Bytes) (i : Nat) :
    (encodeFixed32 value ++ tail).getD (4 + i) 0 = tail.getD i 0 := by
  rw [getD_eq_getElem?_getD, getD_eq_getElem?_getD, getElem?_append_right (by simp),
    length_encodeFixed32, Nat.add_sub_cancel_left]

theorem header_length (t : RecordType) {payload : Bytes} (hlen : payload.length < 2 ^ 16)
    (rest : Bytes) :
    ((emitPhysicalRecord crc t payload ++ rest).getD 4 0).toNat |||
      ((emitPhysicalRecord crc t payload ++ rest).getD 5 0).toNat <<< 8 = payload.length := by
  rw [emitPhysicalRecord_append crc, getD_header _ _ 0, getD_header _ _ 1]
  exact length_bytes hlen

theorem drop_emitPhysicalRecord (t : RecordType) (payload rest : Bytes) :
    (emitPhysicalRecord crc t payload ++ rest).drop 6 = t.toByte :: (payload ++ rest) := by
  rw [emitPhysicalRecord_append crc, drop_append, length_encodeFixed32,
    drop_eq_nil_of_le (by simp)]
  rfl

variable {crc}

theorem blockItems_cons {eof : Bool} {pos type length : Nat} {buffer : Bytes}
    (hsize : kHeaderSize + length ≤ buffer.length)
    (htype : charToUnsigned (buffer.getD 6 0) = type)
    (hlength : (buffer.getD 4 0).toNat ||| (buffer.getD 5 0).toNat <<< 8 = length)
    (hzero : ¬(type = 0 ∧ length = 0))
    (hcrc : crc.value ((buffer.drop 6).take (1 + length)) = unmask (decodeFixed32 buffer)) :
    blockItems crc checksum eof pos buffer =
      ⟨type, (buffer.drop kHeaderSize).take length, pos + (kHeaderSize + length), []⟩ ::
        blockItems crc checksum eof (pos + (kHeaderSize + length))
          (buffer.drop (kHeaderSize + length)) := by
  rw [blockItems]
  dsimp only
  rw [htype, hlength, if_neg (by omega), if_neg (not_lt.mpr hsize), if_neg hzero,
    if_neg fun h => h.2 hcrc]

theorem blockItems_emit (eof : Bool) (pos : Nat) {t : RecordType} (ht : t ≠ .zero)
    {payload : Bytes} (hlen : payload.length < 2 ^ 16) (rest : Bytes) :
    blockItems crc checksum eof pos (emitPhysicalRecord crc t payload ++ rest) =
      ⟨t.toByte.toNat, payload, pos + (kHeaderSize + payload.length), []⟩ ::
        blockItems crc checksum eof (pos + (kHeaderSize + payload.length)) rest := by
  have hdrop := drop_emitPhysicalRecord crc t payload rest
  have hshape := emitPhysicalRecord_append crc t payload rest
  have hsize : (emitPhysicalRecord crc t payload).length = kHeaderSize + payload.length :=
    length_emitPhysicalRecord crc t payload
  have htype : charToUnsigned ((emitPhysicalRecord crc t payload ++ rest).getD 6 0) =
      t.toByte.toNat := by
    rw [hshape, ← charToUnsigned_toByte]
    exact congrArg charToUnsigned (getD_header _ _ 2)
  have hzero : ¬(t.toByte.toNat = 0 ∧ payload.length = 0) := by
    rintro ⟨h, -⟩
    cases t <;> first | exact ht rfl | cases h
  have hcrc : crc.value (((emitPhysicalRecord crc t payload ++ rest).drop 6).take
      (1 + payload.length)) = unmask (decodeFixed32 (emitPhysicalRecord crc t payload ++ rest)) := by
    rw [hdrop, hshape, decodeFixed32_encodeFixed32, unmask_mask, Checksum.value, Checksum.value,
      ← crc.extend_append, Nat.add_comm 1, take_succ_cons, take_left]
    rfl
  have hpayload : ((emitPhysicalRecord crc t payload ++ rest).drop kHeaderSize).take
      payload.length = payload := by
    have hseven : (emitPhysicalRecord crc t payload ++ rest).drop kHeaderSize = payload ++ rest :=
      (drop_drop (i := 1) (j := 6)).symm.trans (congrArg (List.drop 1) hdrop)
    rw [hseven, take_left]
  have hfits : kHeaderSize + payload.length ≤ (emitPhysicalRecord crc t payload ++ rest).length := by
    rw [length_append, hsize]
    exact Nat.le_add_right _ _
  rw [blockItems_cons hfits htype (header_length crc t hlen rest) hzero hcrc, hpayload,
    drop_left' hsize]

theorem blockItems_emit_cut (pos : Nat) (t : RecordType) {payload : Bytes}
    (hlen : payload.length < 2 ^ 16) {n : Nat} (hn : n < kHeaderSize + payload.length) :
    blockItems crc checksum true pos ((emitPhysicalRecord crc t payload).take n) = [] := by
  have hsize : ((emitPhysicalRecord crc t payload).take n).length = n := by
    rw [length_take, length_emitPhysicalRecord]
    omega
  rw [blockItems]
  dsimp only
  rw [hsize]
  by_cases hhead : n < kHeaderSize
  · rw [if_pos hhead]
  · have hget : ∀ i < 7, ((emitPhysicalRecord crc t payload).take n).getD i 0 =
        (emitPhysicalRecord crc t payload ++ []).getD i 0 := by
      intro i hi
      have : i < n := by
        unfold kHeaderSize at hhead
        omega
      rw [getD_eq_getElem?_getD, getElem?_take_of_lt this, append_nil,
        getD_eq_getElem?_getD]
    rw [if_neg hhead, hget 4 (by decide), hget 5 (by decide), header_length crc t hlen, if_pos hn,
      if_pos rfl]

/-! ## From a position on -/

/-- The items of what a file holds from `pos` on. -/
def itemsFrom (crc : Checksum) (checksum : Bool) (pos : Nat) (bytes : Bytes) : List Item :=
  let room := kBlockSize - pos % kBlockSize
  if bytes.length < room then blockItems crc checksum true pos bytes
  else blockItems crc checksum false pos (bytes.take room) ++
    fileItems crc checksum (pos + room) (bytes.drop room)

variable {pos : Nat}

theorem itemsFrom_of_lt {bytes : Bytes} (h : bytes.length < kBlockSize - pos % kBlockSize) :
    itemsFrom crc checksum pos bytes = blockItems crc checksum true pos bytes :=
  if_pos h

theorem itemsFrom_append {block : Bytes} (h : block.length = kBlockSize - pos % kBlockSize)
    (bytes : Bytes) :
    itemsFrom crc checksum pos (block ++ bytes) =
      blockItems crc checksum false pos block ++
        fileItems crc checksum (pos + block.length) bytes := by
  unfold itemsFrom
  dsimp only
  rw [← h, if_neg (by simp), take_left, drop_left]

theorem itemsFrom_block (h : pos % kBlockSize = 0) (bytes : Bytes) :
    itemsFrom crc checksum pos bytes = fileItems crc checksum pos bytes := by
  unfold itemsFrom
  rw [h]
  dsimp only
  obtain hshort | hfull := Nat.lt_or_ge bytes.length kBlockSize
  · rw [Nat.sub_zero, if_pos hshort, fileItems_of_short hshort]
  · rw [Nat.sub_zero, if_neg (not_lt.mpr hfull), fileItems_of_full hfull]

theorem blockItems_of_short {eof : Bool} {bytes : Bytes} (h : bytes.length < kHeaderSize) :
    blockItems crc checksum eof pos bytes = [] := by
  rw [blockItems]
  exact if_pos h

theorem itemsFrom_nil (pos : Nat) : itemsFrom crc checksum pos [] = [] := by
  have hroom : pos % kBlockSize < kBlockSize := Nat.mod_lt _ (by decide)
  rw [itemsFrom_of_lt (by rw [length_nil]; omega), blockItems_of_short (by decide)]

theorem itemsFrom_fill {rest : Bytes} (h : (pos + rest.length) % kBlockSize = 0)
    (hlt : rest.length < kBlockSize) (bytes : Bytes) :
    itemsFrom crc checksum pos (rest ++ bytes) =
      blockItems crc checksum false pos rest ++
        fileItems crc checksum (pos + rest.length) bytes := by
  by_cases hpos : pos % kBlockSize = 0
  · have hnil : rest = [] := by
      apply eq_nil_of_length_eq_zero
      unfold kBlockSize at *
      omega
    rw [hnil, itemsFrom_block hpos, blockItems_of_short (by decide)]
    rfl
  · apply itemsFrom_append
    unfold kBlockSize at *
    omega

theorem itemsFrom_pad (bytes : Bytes) :
    itemsFrom crc checksum pos (List.replicate (padAt pos) 0 ++ bytes) =
      itemsFrom crc checksum (startAt pos) bytes := by
  unfold startAt padAt
  by_cases h : kBlockSize - pos % kBlockSize < kHeaderSize
  · rw [if_pos h, itemsFrom_append length_replicate, length_replicate,
      blockItems_of_short (by rwa [length_replicate]), itemsFrom_block]
    · rfl
    · unfold kBlockSize
      omega
  · rw [if_neg h]
    rfl

theorem itemsFrom_fragment {f : Fragment} (hzero : f.type ≠ .zero)
    (hroom : startAt pos % kBlockSize + kHeaderSize + f.payload.length ≤ kBlockSize)
    (bytes : Bytes) :
    itemsFrom crc checksum pos (List.replicate (padAt pos) 0 ++
        (emitPhysicalRecord crc f.type f.payload ++ bytes)) =
      ⟨f.type.toByte.toNat, f.payload, f.stop pos, []⟩ ::
        itemsFrom crc checksum (f.stop pos) bytes := by
  rw [itemsFrom_pad, Fragment.stop]
  generalize startAt pos = start at *
  have hlen : f.payload.length < 2 ^ 16 := by
    unfold kBlockSize at hroom
    omega
  have hsize := length_emitPhysicalRecord crc f.type f.payload
  obtain hlt | hge := Nat.lt_or_ge (kHeaderSize + f.payload.length + bytes.length)
    (kBlockSize - start % kBlockSize)
  · rw [itemsFrom_of_lt (by rwa [length_append, hsize]), blockItems_emit true start hzero hlen,
      Nat.add_assoc, itemsFrom_of_lt]
    unfold kBlockSize at *
    omega
  · -- the block goes on for `n` bytes after the fragment
    obtain ⟨n, hn⟩ : ∃ n, kHeaderSize + f.payload.length + n = kBlockSize - start % kBlockSize :=
      ⟨kBlockSize - start % kBlockSize - (kHeaderSize + f.payload.length), by omega⟩
    have htake : (bytes.take n).length = n := by
      rw [length_take]
      omega
    have hblock : (emitPhysicalRecord crc f.type f.payload ++ bytes.take n).length =
        kBlockSize - start % kBlockSize := by
      rw [length_append, hsize, htake, hn]
    have hrest : (start + (kHeaderSize + f.payload.length) + (bytes.take n).length) % kBlockSize =
        0 := by
      rw [htake]
      unfold kBlockSize at *
      omega
    have hless : (bytes.take n).length < kBlockSize := by
      rw [htake]
      unfold kHeaderSize at hn
      omega
    conv_lhs => rw [← List.take_append_drop n bytes, ← append_assoc]
    conv_rhs => rw [← List.take_append_drop n bytes]
    rw [itemsFrom_append hblock, blockItems_emit false start hzero hlen, length_append, hsize,
      cons_append, Nat.add_assoc start, itemsFrom_fill hrest hless,
      ← Nat.add_assoc start _ (bytes.take n).length]

theorem itemsFrom_fragment_cut {f : Fragment}
    (hroom : startAt pos % kBlockSize + kHeaderSize + f.payload.length ≤ kBlockSize) {n : Nat}
    (hn : n < padAt pos + (kHeaderSize + f.payload.length)) :
    itemsFrom crc checksum pos ((List.replicate (padAt pos) 0 ++
        emitPhysicalRecord crc f.type f.payload).take n) = [] := by
  have hlen : f.payload.length < 2 ^ 16 := by
    unfold kBlockSize at hroom
    omega
  obtain hlt | hge := Nat.lt_or_ge n (padAt pos)
  · have hpad : padAt pos ≤ kBlockSize - pos % kBlockSize ∧ padAt pos ≤ kHeaderSize := by
      unfold padAt
      split_ifs
      · omega
      · omega
    have hsize : ((List.replicate (padAt pos) (0 : UInt8) ++
        emitPhysicalRecord crc f.type f.payload).take n).length = n := by
      rw [length_take, length_append, length_replicate]
      omega
    rw [itemsFrom_of_lt (by omega), blockItems_of_short (by omega)]
  · have htake : (List.replicate (padAt pos) (0 : UInt8) ++
        emitPhysicalRecord crc f.type f.payload).take n =
          List.replicate (padAt pos) 0 ++
            (emitPhysicalRecord crc f.type f.payload).take (n - padAt pos) := by
      rw [take_append, length_replicate, take_of_length_le]
      rwa [length_replicate]
    have hcut : n - padAt pos < kHeaderSize + f.payload.length := by omega
    rw [htake, itemsFrom_pad, itemsFrom_of_lt, blockItems_emit_cut _ _ hlen hcut]
    rw [length_take]
    omega

/-! ## Records -/

def itemsOf : Nat → List Fragment → List Item
  | _, [] => []
  | pos, f :: fs => ⟨f.type.toByte.toNat, f.payload, f.stop pos, []⟩ :: itemsOf (f.stop pos) fs

theorem itemsOf_append (pos : Nat) (fs gs : List Fragment) :
    itemsOf pos (fs ++ gs) = itemsOf pos fs ++ itemsOf (stop pos fs) gs := by
  induction fs generalizing pos with
  | nil => rfl
  | cons f fs ih => exact congrArg (_ :: ·) (ih _)

theorem fragmentType_ne_zero (begins ends : Bool) : fragmentType begins ends ≠ .zero := by
  cases begins <;> cases ends <;> decide

theorem Spells.ne_zero {begins : Bool} {fs : List Fragment} {record : Bytes}
    (h : Spells begins fs record) : ∀ f ∈ fs, f.type ≠ .zero := by
  induction h with
  | ends begins payload =>
    intro f hf
    rw [mem_singleton.mp hf]
    exact fragmentType_ne_zero begins true
  | goesOn begins payload _ ih =>
    simp_all [mem_cons, fragmentType_ne_zero]

theorem itemsFrom_laid {fs : List Fragment} (hlaid : Laid pos fs) (hzero : ∀ f ∈ fs, f.type ≠ .zero)
    (bytes : Bytes) :
    itemsFrom crc checksum pos (laidBytes crc pos fs ++ bytes) =
      itemsOf pos fs ++ itemsFrom crc checksum (stop pos fs) bytes := by
  induction fs generalizing pos with
  | nil => rfl
  | cons f fs ih =>
    obtain ⟨hroom, hlaid⟩ := hlaid
    rw [laidBytes, append_assoc, append_assoc,
      itemsFrom_fragment (hzero f mem_cons_self) hroom,
      ih hlaid fun g hg => hzero g (mem_cons_of_mem f hg)]
    rfl

theorem offset_fragment (f : Fragment) (pos : Nat) (reports : List Report) :
    Item.offset ⟨f.type.toByte.toNat, f.payload, f.stop pos, reports⟩ = startAt pos := by
  unfold Item.offset Fragment.stop
  dsimp only
  omega

namespace Assembly

variable {s : Assembly}

theorem reportPartial_eq (s : Assembly) (reason : String) :
    ∃ reports, s.reportPartial reason = { s with reports := reports } := by
  unfold reportPartial
  split_ifs
  · exact ⟨_, rfl⟩
  · exact ⟨s.reports, rfl⟩

theorem reportPartial_of_clean (h : s.inFragmentedRecord = false) (reason : String) :
    s.reportPartial reason = s := by
  unfold reportPartial
  rw [h, Bool.false_and]
  rfl

theorem step_full (hs : s.stopped = false) (payload : Bytes) (position : Nat) :
    s.step ⟨kFullType, payload, position, []⟩ =
      (s.reportPartial "partial record without end(1)").emit
        (Item.offset ⟨kFullType, payload, position, []⟩) payload := by
  rw [step, if_neg (ne_true_of_eq_false hs), append_nil]
  rfl

theorem step_first (hs : s.stopped = false) (payload : Bytes) (position : Nat) :
    s.step ⟨kFirstType, payload, position, []⟩ =
      { s.reportPartial "partial record without end(2)" with
        inFragmentedRecord := true
        scratch := payload
        prospectiveRecordOffset := Item.offset ⟨kFirstType, payload, position, []⟩ } := by
  rw [step, if_neg (ne_true_of_eq_false hs), append_nil]
  rfl

theorem step_middle (hs : s.stopped = false) (hin : s.inFragmentedRecord = true) (payload : Bytes)
    (position : Nat) :
    s.step ⟨kMiddleType, payload, position, []⟩ = { s with scratch := s.scratch ++ payload } := by
  rw [step, if_neg (ne_true_of_eq_false hs), append_nil]
  exact if_pos hin

theorem step_last (hs : s.stopped = false) (hin : s.inFragmentedRecord = true) (payload : Bytes)
    (position : Nat) :
    s.step ⟨kLastType, payload, position, []⟩ =
      s.emit s.prospectiveRecordOffset (s.scratch ++ payload) := by
  rw [step, if_neg (ne_true_of_eq_false hs), append_nil]
  exact if_pos hin

theorem run_rest {begins : Bool} {fs : List Fragment} {record : Bytes} (h : Spells begins fs record)
    (hbegins : begins = false) (hs : s.stopped = false) (hin : s.inFragmentedRecord = true) :
    s.run (itemsOf pos fs) = s.emit s.prospectiveRecordOffset (s.scratch ++ record) := by
  induction h generalizing s pos with
  | ends begins payload =>
    subst hbegins
    show run (s.step ⟨kLastType, payload, _, []⟩) [] = _
    rw [step_last hs hin]
    rfl
  | goesOn begins payload _ ih =>
    subst hbegins
    show run (s.step ⟨kMiddleType, payload, _, []⟩) (itemsOf _ _) = _
    rw [step_middle hs hin]
    refine (ih (s := { s with scratch := s.scratch ++ payload }) rfl hs hin).trans ?_
    exact congrArg (emit s _) (append_assoc _ _ _)

theorem run_record {fs : List Fragment} {record : Bytes} (h : Spells true fs record)
    (hs : s.stopped = false) :
    ∃ reason, s.run (itemsOf pos fs) = (s.reportPartial reason).emit (startAt pos) record := by
  cases h with
  | ends =>
    refine ⟨"partial record without end(1)", ?_⟩
    show run (s.step ⟨kFullType, record, _, []⟩) [] = _
    rw [step_full hs]
    exact congrArg (fun offset => emit _ offset record) (offset_fragment ⟨.full, record⟩ pos [])
  | goesOn _ payload h =>
    refine ⟨"partial record without end(2)", ?_⟩
    show run (s.step ⟨kFirstType, payload, _, []⟩) (itemsOf _ _) = _
    obtain ⟨reports, hpart⟩ := s.reportPartial_eq "partial record without end(2)"
    rw [step_first hs, hpart]
    refine (run_rest (s := ⟨true, payload, _, s.records, reports, s.stopped⟩) h rfl hs rfl).trans ?_
    exact congrArg (fun offset => emit { s with reports := reports } offset _)
      (offset_fragment ⟨.first, payload⟩ pos [])

variable (crc checksum) in
theorem run_cut {begins : Bool} {fs : List Fragment} {record : Bytes} (h : Spells begins fs record)
    (hlaid : Laid pos fs) (hs : s.stopped = false) (hin : s.inFragmentedRecord = !begins) {n : Nat}
    (hn : n < (laidBytes crc pos fs).length) :
    ∃ s', s.run (itemsFrom crc checksum pos ((laidBytes crc pos fs).take n)) = s' ∧
      s'.records = s.records ∧ s'.reports = s.reports ∧ s'.stopped = false := by
  induction h generalizing s pos n with
  | ends begins payload =>
    rw [laidBytes, laidBytes, append_nil] at hn ⊢
    rw [length_append, length_replicate, length_emitPhysicalRecord] at hn
    rw [itemsFrom_fragment_cut hlaid.1 hn]
    exact ⟨s, rfl, rfl, rfl, hs⟩
  | @goesOn begins payload fs rest h ih =>
    obtain ⟨hroom, hlaid⟩ := hlaid
    rw [laidBytes, ← append_assoc] at hn ⊢
    rw [length_append, length_append, length_replicate,
      length_emitPhysicalRecord] at hn
    have hsize : (List.replicate (padAt pos) (0 : UInt8) ++
        emitPhysicalRecord crc (fragmentType begins false) payload).length =
          padAt pos + (kHeaderSize + payload.length) := by
      rw [length_append, length_replicate, length_emitPhysicalRecord]
    rw [take_append, hsize]
    obtain hlt | hge := Nat.lt_or_ge n (padAt pos + (kHeaderSize + payload.length))
    · rw [Nat.sub_eq_zero_of_le hlt.le, take_zero, append_nil,
        itemsFrom_fragment_cut (f := ⟨fragmentType begins false, payload⟩) hroom hlt]
      exact ⟨s, rfl, rfl, rfl, hs⟩
    · rw [take_of_length_le (hsize ▸ hge), append_assoc,
        itemsFrom_fragment (f := ⟨fragmentType begins false, payload⟩)
          (fragmentType_ne_zero begins false) hroom]
      have hrest : n - (padAt pos + (kHeaderSize + payload.length)) <
          (laidBytes crc (Fragment.stop ⟨fragmentType begins false, payload⟩ pos) fs).length := by
        dsimp only at hn
        omega
      cases begins with
      | true =>
        show ∃ s', run (s.step ⟨kFirstType, payload, _, []⟩) _ = s' ∧ _
        rw [step_first hs, reportPartial_of_clean hin]
        exact ih (s := ⟨true, payload, _, s.records, s.reports, s.stopped⟩) hlaid hs rfl hrest
      | false =>
        show ∃ s', run (s.step ⟨kMiddleType, payload, _, []⟩) _ = s' ∧ _
        rw [step_middle hs hin]
        exact ih (s := { s with scratch := s.scratch ++ payload }) hlaid hs hin hrest

end Assembly

/-! ## Files -/

def placed : Nat → List Bytes → List (Nat × Bytes)
  | _, [] => []
  | pos, record :: records =>
    (startAt pos, record) :: placed (stop pos (fragmentsOf pos record)) records

theorem map_snd_placed (pos : Nat) (records : List Bytes) :
    (placed pos records).map Prod.snd = records := by
  induction records generalizing pos with
  | nil => rfl
  | cons record records ih => rw [placed, map_cons, ih]

theorem endOf_cons (pos : Nat) (record : Bytes) (records : List Bytes) :
    endOf pos (record :: records) = endOf (stop pos (fragmentsOf pos record)) records := by
  unfold endOf
  rw [layout, flatten_cons, stop_append]

theorem le_endOf (pos : Nat) (records : List Bytes) : pos ≤ endOf pos records := by
  have := pos_add_length_laidBytes crc32c pos (layout pos records).flatten
  unfold endOf
  omega

theorem run_records (crc : Checksum) (checksum : Bool) (pos : Nat) (records : List Bytes) (n : Nat)
    {s : Assembly} (hs : s.stopped = false) (hin : s.inFragmentedRecord = false) :
    ∃ k ≤ records.length, (∀ j ≤ records.length, endOf pos (records.take j) ≤ pos + n ↔ j ≤ k) ∧
      ∃ s', s.run (itemsFrom crc checksum pos
          ((laidBytes crc pos (layout pos records).flatten).take n)) = s' ∧
        s'.records = s.records ++ placed pos (records.take k) ∧ s'.reports = s.reports ∧
        s'.stopped = false := by
  induction records generalizing pos n s with
  | nil =>
    refine ⟨0, le_refl _, ?_, s, ?_, (append_nil _).symm, rfl, hs⟩
    · intro j hj
      rw [take_nil]
      exact iff_of_true (Nat.le_add_right pos n) hj
    · rw [layout, flatten_nil, laidBytes, take_nil, itemsFrom_nil]
      rfl
  | cons record records ih =>
    obtain ⟨hspells, hlaid⟩ := fragmentsOf_spec pos record
    have hstop := pos_add_length_laidBytes crc pos (fragmentsOf pos record)
    rw [layout, flatten_cons, laidBytes_append]
    obtain hlt | hge := Nat.lt_or_ge n (laidBytes crc pos (fragmentsOf pos record)).length
    · obtain ⟨s', hrun, hrec, hrep, hs'⟩ :=
        Assembly.run_cut crc checksum hspells hlaid hs hin hlt
      rw [take_append_of_le_length hlt.le, hrun]
      refine ⟨0, Nat.zero_le _, ?_, s', rfl, hrec.trans (append_nil _).symm, hrep, hs'⟩
      intro j hj
      cases j with
      | zero => exact iff_of_true (Nat.le_add_right pos n) le_rfl
      | succ j =>
        grind [le_endOf, stop, fragmentsOf, endOf_cons]
    · obtain ⟨reason, hrun⟩ : ∃ reason, s.run (itemsOf pos (fragmentsOf pos record)) =
          (s.reportPartial reason).emit (startAt pos) record := Assembly.run_record hspells hs
      rw [Assembly.reportPartial_of_clean hin] at hrun
      rw [take_append, take_of_length_le hge,
        itemsFrom_laid hlaid hspells.ne_zero, Assembly.run_append, hrun]
      obtain ⟨k, hk, hends, s', hrest, hrec, hrep, hs'⟩ := ih (stop pos (fragmentsOf pos record))
        (n - (laidBytes crc pos (fragmentsOf pos record)).length)
        (s := s.emit (startAt pos) record) hs rfl
      refine ⟨k + 1, Nat.succ_le_succ hk, ?_, s', hrest, ?_, hrep, hs'⟩
      · intro j hj
        cases j with
        | zero => exact iff_of_true (Nat.le_add_right pos n) (Nat.zero_le _)
        | succ j =>
          have hj := hends j (Nat.le_of_succ_le_succ hj)
          rw [take_succ_cons, endOf_cons]
          omega
      · rw [hrec, take_succ_cons, placed]
        exact append_assoc _ _ _

theorem readLog_take (crc : Checksum) (checksum : Bool) (records : List Bytes) (t : Nat) :
    ∃ k ≤ records.length,
      (∀ j ≤ records.length, (logFile crc (records.take j)).length ≤ t ↔ j ≤ k) ∧
      readLog crc checksum ((logFile crc records).take t) =
        some (placed 0 (records.take k), []) := by
  obtain ⟨k, hk, hends, s', hrun, hrec, hrep, -⟩ :=
    run_records crc checksum 0 records t (s := .start) rfl rfl
  refine ⟨k, hk, ?_, ?_⟩
  · intro j hj
    rw [length_logFile, ← hends j hj, Nat.zero_add]
  · rw [readLog_eq, ← itemsFrom_block (Nat.zero_mod _)]
    exact hrun ▸ congrArg some (Prod.ext hrec hrep)

theorem readLog_logFile (crc : Checksum) (checksum : Bool) (records : List Bytes) :
    readLog crc checksum (logFile crc records) = some (placed 0 records, []) := by
  obtain ⟨k, -, hends, hread⟩ := readLog_take crc checksum records (logFile crc records).length
  have hall : records.length ≤ k :=
    (hends records.length le_rfl).mp (by rw [take_length])
  rwa [take_length, take_of_length_le hall] at hread

/-- Whatever writers have written and wherever the file is cut, the records that end at or
    before the cut are read, and nothing is reported. -/
theorem readLog_cut (crc : Checksum) (checksum : Bool) (sessions : List (List Bytes)) (t : Nat) :
    ∃ k ≤ sessions.flatten.length,
      (∀ j ≤ sessions.flatten.length,
        (writeSessions crc [] [sessions.flatten.take j]).length ≤ t ↔ j ≤ k) ∧
      ∃ out, readLog crc checksum ((writeSessions crc [] sessions).take t) = some (out, []) ∧
        out.map Prod.snd = sessions.flatten.take k := by
  obtain ⟨k, hk, hends, hread⟩ := readLog_take crc checksum sessions.flatten t
  refine ⟨k, hk, ?_, placed 0 (sessions.flatten.take k), ?_, map_snd_placed _ _⟩
  · intro j hj
    rw [writeSessions_nil, flatten_singleton, ← hends j hj]
  · rw [writeSessions_nil, hread]

end LevelDB.Log
