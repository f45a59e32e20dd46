/-
  The log reader (`db/log_reader.h`).

  The reporter is a list of what it has been told. Loops have a bound on their turns and give
  `none` when it is reached, which does not happen (`readOn_loop`).

  A reader goes through a list of items, one for each physical record (`Reader.items`), and
  `ReadRecord` puts them together one after the other (`Assembly.step`). With an initial offset it
  takes the items before it for bad records (`Item.shown`).
-/
import LevelDB.DbFormat
import LevelDB.Log.Writer

namespace LevelDB.Log

open List

/-! ## The reader -/

abbrev Report := Nat × Status

@[match_pattern] abbrev kFullType : Nat := 1
@[match_pattern] abbrev kFirstType : Nat := 2
@[match_pattern] abbrev kMiddleType : Nat := 3
@[match_pattern] abbrev kLastType : Nat := 4

/-- `kMaxRecordType + 1`. -/
@[match_pattern] abbrev kEof : Nat := 5

/-- `kMaxRecordType + 2`. -/
@[match_pattern] abbrev kBadRecord : Nat := 6

/-- `class Reader`; `file` is what the file has not returned yet. -/
structure Reader where
  file : Bytes
  checksum : Bool
  buffer : Bytes
  eof : Bool
  lastRecordOffset : Nat
  endOfBufferOffset : Nat
  initialOffset : Nat
  resyncing : Bool
  reports : List Report

/-- `Reader::Reader`. -/
def Reader.new (file : Bytes) (checksum : Bool) (initialOffset : Nat) : Reader where
  file := file
  checksum := checksum
  buffer := []
  eof := false
  lastRecordOffset := 0
  endOfBufferOffset := 0
  initialOffset := initialOffset
  resyncing := decide (0 < initialOffset)
  reports := []

/-- A `char` as an `unsigned int`. -/
def charToUnsigned (b : UInt8) : Nat := if b.toNat < 128 then b.toNat else b.toNat + (2 ^ 32 - 256)

namespace Reader

def reportDrop (r : Reader) (bytes : Nat) (reason : Status) : Reader :=
  if r.initialOffset ≤ r.endOfBufferOffset - r.buffer.length - bytes then
    { r with reports := r.reports ++ [(bytes, reason)] }
  else r

def reportCorruption (r : Reader) (bytes : Nat) (reason : String) : Reader :=
  r.reportDrop bytes (.corruptionErr reason)

/-- `SkipToInitialBlock`; skipping in the file does not fail. -/
def skipToInitialBlock (r : Reader) : Reader :=
  let offsetInBlock := r.initialOffset % kBlockSize
  let blockStartLocation := r.initialOffset - offsetInBlock
  let blockStartLocation :=
    if kBlockSize - 6 < offsetInBlock then blockStartLocation + kBlockSize else blockStartLocation
  { r with endOfBufferOffset := blockStartLocation, file := r.file.drop blockStartLocation }

def refill (r : Reader) : Reader :=
  let block := r.file.take kBlockSize
  { r with
    file := r.file.drop kBlockSize
    buffer := block
    endOfBufferOffset := r.endOfBufferOffset + block.length
    eof := decide (block.length < kBlockSize) }

/-- The rest of `ReadPhysicalRecord`, with a header in the buffer. -/
def parse (crc : Checksum) (r : Reader) : Nat × Bytes × Reader :=
  let header := r.buffer
  let type := charToUnsigned (header.getD 6 0)
  let length := (header.getD 4 0).toNat ||| (header.getD 5 0).toNat <<< 8
  if r.buffer.length < kHeaderSize + length then
    let dropSize := r.buffer.length
    let r := { r with buffer := [] }
    if r.eof then (kEof, [], r)
    else (kBadRecord, [], r.reportCorruption dropSize "bad record length")
  else if type = 0 ∧ length = 0 then (kBadRecord, [], { r with buffer := [] })
  else if r.checksum ∧
      crc.value ((header.drop 6).take (1 + length)) ≠ unmask (decodeFixed32 header) then
    let dropSize := r.buffer.length
    (kBadRecord, [], { r with buffer := [] }.reportCorruption dropSize "checksum mismatch")
  else
    let r := { r with buffer := header.drop (kHeaderSize + length) }
    if r.endOfBufferOffset - r.buffer.length - kHeaderSize - length < r.initialOffset then
      (kBadRecord, [], r)
    else (type, (header.drop kHeaderSize).take length, r)

/-- `ReadPhysicalRecord`. Its loop reads at most one block: a block that is shorter than a
    header is the last one. -/
def readPhysicalRecord (crc : Checksum) (r : Reader) : Nat × Bytes × Reader :=
  if r.buffer.length < kHeaderSize then
    if r.eof then (kEof, [], { r with buffer := [] })
    else
      let r := r.refill
      if r.buffer.length < kHeaderSize then (kEof, [], { r with buffer := [] })
      else r.parse crc
  else r.parse crc

/-- The loop of `ReadRecord`, with `in_fragmented_record`, `scratch` and
    `prospective_record_offset`. -/
def readRecordLoop (crc : Checksum) :
    Nat → Reader → Bool → Bytes → Nat → Option (Option Bytes × Reader)
  | 0, _, _, _, _ => none
  | turns + 1, r, inFragmentedRecord, scratch, prospectiveRecordOffset =>
    let (recordType, fragment, r) := r.readPhysicalRecord crc
    let physicalRecordOffset :=
      r.endOfBufferOffset - r.buffer.length - kHeaderSize - fragment.length
    if r.resyncing && recordType == kMiddleType then
      readRecordLoop crc turns r inFragmentedRecord scratch prospectiveRecordOffset
    else if r.resyncing && recordType == kLastType then
      readRecordLoop crc turns { r with resyncing := false } inFragmentedRecord scratch
        prospectiveRecordOffset
    else
      let r := { r with resyncing := false }
      match recordType with
      | kFullType =>
        let r := if inFragmentedRecord && !scratch.isEmpty then
          r.reportCorruption scratch.length "partial record without end(1)" else r
        some (some fragment, { r with lastRecordOffset := physicalRecordOffset })
      | kFirstType =>
        let r := if inFragmentedRecord && !scratch.isEmpty then
          r.reportCorruption scratch.length "partial record without end(2)" else r
        readRecordLoop crc turns r true fragment physicalRecordOffset
      | kMiddleType =>
        if inFragmentedRecord then
          readRecordLoop crc turns r true (scratch ++ fragment) prospectiveRecordOffset
        else
          readRecordLoop crc turns
            (r.reportCorruption fragment.length "missing start of fragmented record(1)")
            false scratch prospectiveRecordOffset
      | kLastType =>
        if inFragmentedRecord then
          some (some (scratch ++ fragment), { r with lastRecordOffset := prospectiveRecordOffset })
        else
          readRecordLoop crc turns
            (r.reportCorruption fragment.length "missing start of fragmented record(2)")
            false scratch prospectiveRecordOffset
      | kEof => some (none, r)
      | kBadRecord =>
        if inFragmentedRecord then
          readRecordLoop crc turns (r.reportCorruption scratch.length "error in middle of record")
            false [] prospectiveRecordOffset
        else readRecordLoop crc turns r false scratch prospectiveRecordOffset
      | unknown =>
        let r := r.reportDrop
          (fragment.length + if inFragmentedRecord then scratch.length else 0)
          (.corruptionErr ("unknown record type " ++ toString unknown))
        readRecordLoop crc turns r false [] prospectiveRecordOffset

def left (r : Reader) : Nat := r.buffer.length + r.file.length

def readRecord (crc : Checksum) (r : Reader) : Option (Option Bytes × Reader) :=
  let r := if r.lastRecordOffset < r.initialOffset then r.skipToInitialBlock else r
  readRecordLoop crc (r.left + 1) r false [] 0

/-- `ReadRecord` until there are no more records: the records with their offsets, and the
    reader in the end. -/
def readAll (crc : Checksum) : Nat → Reader → Option (List (Nat × Bytes) × Reader)
  | 0, _ => none
  | turns + 1, r =>
    match r.readRecord crc with
    | none => none
    | some (none, r) => some ([], r)
    | some (some record, r) =>
      (readAll crc turns r).map fun (records, r') => ((r.lastRecordOffset, record) :: records, r')

end Reader

def readLog (crc : Checksum) (checksum : Bool) (file : Bytes) :
    Option (List (Nat × Bytes) × List Report) :=
  ((Reader.new file checksum 0).readAll crc (file.length + 1)).map fun (records, r) =>
    (records, r.reports)

/-! ## Items -/

/-- What one call of `ReadPhysicalRecord` finds: what it returns, where the reader stands
    afterwards, and what the reporter is told. -/
structure Item where
  code : Nat
  fragment : Bytes
  position : Nat
  reports : List Report

/-- `physical_record_offset`. -/
def Item.offset (it : Item) : Nat := it.position - kHeaderSize - it.fragment.length

def Item.shown (initialOffset : Nat) (it : Item) : Item :=
  if it.offset < initialOffset then ⟨kBadRecord, [], it.position, it.reports⟩ else it

theorem Item.shown_bad (initialOffset position : Nat) (reports : List Report) :
    Item.shown initialOffset ⟨kBadRecord, [], position, reports⟩ =
      ⟨kBadRecord, [], position, reports⟩ := ite_self _

theorem Item.shown_zero : Item.shown 0 = id := by
  funext it
  exact if_neg (Nat.not_lt_zero _)

theorem Item.shown_cases (initialOffset : Nat) (it : Item) :
    (it.shown initialOffset).position = it.position ∧
      (it.shown initialOffset).reports = it.reports ∧
      ((it.shown initialOffset).code ≠ kBadRecord →
        initialOffset ≤ (it.shown initialOffset).offset) := by
  unfold shown
  split_ifs with h
  · exact ⟨rfl, rfl, fun hne => absurd rfl hne⟩
  · exact ⟨rfl, rfl, fun _ => not_lt.mp h⟩

section Items

variable (crc : Checksum) (checksum : Bool)

/-- The items of a buffer that starts at `pos`. -/
def blockItems (eof : Bool) (pos : Nat) (buffer : Bytes) : List Item :=
  let type := charToUnsigned (buffer.getD 6 0)
  let length := (buffer.getD 4 0).toNat ||| (buffer.getD 5 0).toNat <<< 8
  let bad (reports : List Report) : Item := ⟨kBadRecord, [], pos + buffer.length, reports⟩
  if buffer.length < kHeaderSize then []
  else if buffer.length < kHeaderSize + length then
    if eof then [] else [bad [(buffer.length, .corruptionErr "bad record length")]]
  else if type = 0 ∧ length = 0 then [bad []]
  else if checksum ∧
      crc.value ((buffer.drop 6).take (1 + length)) ≠ unmask (decodeFixed32 buffer) then
    [bad [(buffer.length, .corruptionErr "checksum mismatch")]]
  else
    ⟨type, (buffer.drop kHeaderSize).take length, pos + (kHeaderSize + length), []⟩ ::
      blockItems eof (pos + (kHeaderSize + length)) (buffer.drop (kHeaderSize + length))
termination_by buffer.length
decreasing_by
  simp only [kHeaderSize, length_drop] at *
  omega

def fileItems (pos : Nat) (file : Bytes) : List Item :=
  blockItems crc checksum (decide (file.length < kBlockSize)) pos (file.take kBlockSize) ++
    if file.length < kBlockSize then [] else fileItems (pos + kBlockSize) (file.drop kBlockSize)
termination_by file.length
decreasing_by
  simp only [kBlockSize, length_drop] at *
  omega

variable {crc checksum} {pos : Nat} {file : Bytes}

theorem fileItems_of_short (h : file.length < kBlockSize) :
    fileItems crc checksum pos file = blockItems crc checksum true pos file := by
  rw [fileItems, if_pos h, decide_eq_true h, take_of_length_le h.le, append_nil]

theorem fileItems_of_full (h : kBlockSize ≤ file.length) :
    fileItems crc checksum pos file = blockItems crc checksum false pos (file.take kBlockSize) ++
      fileItems crc checksum (pos + kBlockSize) (file.drop kBlockSize) := by
  rw [fileItems, if_neg (not_lt.mpr h), decide_eq_false (not_lt.mpr h)]

end Items

namespace Reader

def later (crc : Checksum) (r : Reader) : List Item :=
  if r.eof then [] else fileItems crc r.checksum r.endOfBufferOffset r.file

def items (crc : Checksum) (r : Reader) : List Item :=
  blockItems crc r.checksum r.eof (r.endOfBufferOffset - r.buffer.length) r.buffer ++ r.later crc

variable {crc : Checksum} {r : Reader}

theorem reportDrop_eq (r : Reader) : ∃ told : Nat → Status → List Report,
    (∀ bytes reason, r.reportDrop bytes reason = { r with reports := told bytes reason }) ∧
      (r.initialOffset = 0 → ∀ bytes reason, told bytes reason = r.reports ++ [(bytes, reason)]) := by
  refine ⟨fun bytes reason => (r.reportDrop bytes reason).reports, fun bytes reason => ?_,
    fun h bytes reason => ?_⟩
  · dsimp only
    unfold reportDrop
    split_ifs <;> rfl
  · dsimp only
    unfold reportDrop
    rw [if_pos (h ▸ Nat.zero_le _)]

/-- What a call of `ReadPhysicalRecord` does: it takes an item. -/
structure Takes (crc : Checksum) (r r' : Reader) (it : Item) (rest : List Item) : Prop where
  initialOffset : r'.initialOffset = r.initialOffset
  resyncing : r'.resyncing = r.resyncing
  buffered : r'.buffer.length ≤ r'.endOfBufferOffset
  items : r'.items crc = rest
  position : r'.endOfBufferOffset - r'.buffer.length = it.position
  reports : r.initialOffset = 0 → r'.reports = r.reports ++ it.reports

theorem takes_drop (h : r.buffer.length ≤ r.endOfBufferOffset) {told reports : List Report}
    (htold : r.initialOffset = 0 → told = r.reports ++ reports) :
    Takes crc r { r with buffer := [], reports := told }
      ⟨kBadRecord, [], r.endOfBufferOffset - r.buffer.length + r.buffer.length, reports⟩
      (r.later crc) := by
  refine ⟨rfl, rfl, Nat.zero_le _, ?_, ?_, htold⟩
  · unfold items
    dsimp only
    rw [blockItems]
    rfl
  · dsimp only [length_nil]
    omega

theorem parse_items (h : r.buffer.length ≤ r.endOfBufferOffset)
    (hlen : kHeaderSize ≤ r.buffer.length) :
    (r.items crc = [] ∧ ∃ r', r.parse crc = (kEof, [], r') ∧ r'.reports = r.reports) ∨
      ∃ it rest r', r.items crc = it :: rest ∧ r.parse crc =
          ((it.shown r.initialOffset).code, (it.shown r.initialOffset).fragment, r') ∧
        Takes crc r r' it rest := by
  obtain ⟨told, htold, hplain⟩ := reportDrop_eq { r with buffer := [] }
  unfold parse items
  rw [blockItems]
  dsimp only
  rw [if_neg (not_lt.mpr hlen)]
  generalize charToUnsigned (r.buffer.getD 6 0) = type
  generalize (r.buffer.getD 4 0).toNat ||| (r.buffer.getD 5 0).toNat <<< 8 = length
  by_cases h1 : r.buffer.length < kHeaderSize + length
  · rw [if_pos h1, if_pos h1]
    by_cases heof : r.eof = true
    · left
      rw [if_pos heof, if_pos heof]
      refine ⟨?_, _, rfl, rfl⟩
      exact if_pos heof
    · right
      rw [if_neg heof, if_neg heof, reportCorruption, htold]
      refine ⟨_, _, _, rfl, ?_, takes_drop h fun ho => hplain ho _ _⟩
      rw [Item.shown_bad]
  · rw [if_neg h1, if_neg h1]
    right
    by_cases h2 : type = 0 ∧ length = 0
    · rw [if_pos h2, if_pos h2]
      refine ⟨_, _, _, rfl, ?_, takes_drop h fun _ => (append_nil _).symm⟩
      rw [Item.shown_bad]
    · rw [if_neg h2, if_neg h2]
      by_cases h3 : r.checksum = true ∧
          crc.value ((r.buffer.drop 6).take (1 + length)) ≠ unmask (decodeFixed32 r.buffer)
      · rw [if_pos h3, if_pos h3, reportCorruption, htold]
        refine ⟨_, _, _, rfl, ?_, takes_drop h fun ho => hplain ho _ _⟩
        rw [Item.shown_bad]
      · -- a physical record is returned, unless it started too early
        rw [if_neg h3, if_neg h3]
        refine ⟨_, _, { r with buffer := r.buffer.drop (kHeaderSize + length) }, rfl, ?_, rfl, rfl,
          ?_, ?_, ?_, fun _ => (append_nil _).symm⟩
        · have hfragment : ((r.buffer.drop kHeaderSize).take length).length = length := by
            rw [length_take, length_drop]
            omega
          have hoffset : r.endOfBufferOffset - (r.buffer.drop (kHeaderSize + length)).length -
              kHeaderSize - length = r.endOfBufferOffset - r.buffer.length +
                (kHeaderSize + length) - kHeaderSize - length := by
            rw [length_drop]
            omega
          unfold Item.shown Item.offset
          dsimp only
          rw [hfragment, hoffset]
          split_ifs <;> rfl
        · dsimp only
          rw [length_drop]
          omega
        · unfold items
          dsimp only
          rw [length_drop, show r.endOfBufferOffset - (r.buffer.length - (kHeaderSize + length)) =
            r.endOfBufferOffset - r.buffer.length + (kHeaderSize + length) by omega]
          rfl
        · dsimp only
          rw [length_drop]
          omega

theorem refill_items (r : Reader) :
    r.refill.items crc = fileItems crc r.checksum r.endOfBufferOffset r.file := by
  have hpos : r.refill.endOfBufferOffset - r.refill.buffer.length = r.endOfBufferOffset :=
    Nat.add_sub_cancel _ _
  have heof : r.refill.eof = decide (r.file.length < kBlockSize) := by
    show decide ((r.file.take kBlockSize).length < kBlockSize) = _
    rw [length_take]
    simp
  unfold items later
  rw [hpos, heof]
  by_cases hshort : r.file.length < kBlockSize
  · rw [fileItems_of_short hshort, if_pos (decide_eq_true hshort), decide_eq_true hshort]
    show blockItems crc r.checksum true r.endOfBufferOffset (r.file.take kBlockSize) ++ [] = _
    rw [take_of_length_le hshort.le, append_nil]
  · have hend : r.refill.endOfBufferOffset = r.endOfBufferOffset + kBlockSize := by
      show r.endOfBufferOffset + (r.file.take kBlockSize).length = _
      rw [length_take, Nat.min_eq_left (not_lt.mp hshort)]
    rw [fileItems_of_full (not_lt.mp hshort), if_neg (by simpa using hshort), hend,
      decide_eq_false hshort]
    rfl

theorem items_of_short (h : r.buffer.length < kHeaderSize) : r.items crc = r.later crc := by
  unfold items
  rw [blockItems]
  dsimp only
  rw [if_pos h]
  rfl

theorem readPhysicalRecord_items (h : r.buffer.length ≤ r.endOfBufferOffset) :
    (r.items crc = [] ∧ ∃ r', r.readPhysicalRecord crc = (kEof, [], r') ∧
        r'.reports = r.reports) ∨
      ∃ it rest r', r.items crc = it :: rest ∧ r.readPhysicalRecord crc =
          ((it.shown r.initialOffset).code, (it.shown r.initialOffset).fragment, r') ∧
        Takes crc r r' it rest := by
  unfold readPhysicalRecord
  by_cases hlen : r.buffer.length < kHeaderSize
  · rw [if_pos hlen, items_of_short hlen, later]
    by_cases heof : r.eof = true
    · rw [if_pos heof, if_pos heof]
      exact Or.inl ⟨rfl, _, rfl, rfl⟩
    · rw [if_neg heof, if_neg heof, ← refill_items]
      dsimp only
      by_cases hlen' : r.refill.buffer.length < kHeaderSize
      · left
        rw [if_pos hlen', items_of_short hlen', later]
        refine ⟨if_pos ?_, _, rfl, rfl⟩
        exact decide_eq_true (hlen'.trans kHeaderSize_lt)
      · rw [if_neg hlen']
        obtain hend | ⟨it, rest, r', hitems, hparse, htakes⟩ :=
          parse_items (r := r.refill) (Nat.le_add_left _ _) (not_lt.mp hlen')
        · exact Or.inl hend
        · exact Or.inr ⟨it, rest, r', hitems, hparse, htakes.initialOffset, htakes.resyncing,
            htakes.buffered, htakes.items, htakes.position, htakes.reports⟩
  · rw [if_neg hlen]
    exact parse_items h (not_lt.mp hlen)

end Reader

/-! ## Putting items together -/

/-- The variables of `ReadRecord` and what has been returned so far. `stopped` is the end of
    the input. -/
structure Assembly where
  inFragmentedRecord : Bool
  scratch : Bytes
  prospectiveRecordOffset : Nat
  records : List (Nat × Bytes)
  reports : List Report
  stopped : Bool

namespace Assembly

def start : Assembly := ⟨false, [], 0, [], [], false⟩

def emit (s : Assembly) (offset : Nat) (record : Bytes) : Assembly :=
  { s with
    inFragmentedRecord := false
    scratch := []
    prospectiveRecordOffset := 0
    records := s.records ++ [(offset, record)] }

def report (s : Assembly) (bytes : Nat) (reason : String) : Assembly :=
  { s with reports := s.reports ++ [(bytes, .corruptionErr reason)] }

def reportPartial (s : Assembly) (reason : String) : Assembly :=
  if s.inFragmentedRecord && !s.scratch.isEmpty then s.report s.scratch.length reason else s

/-- One turn of the loop in `ReadRecord`. -/
def step (s : Assembly) (it : Item) : Assembly :=
  if s.stopped then s
  else
    let s := { s with reports := s.reports ++ it.reports }
    match it.code with
    | kFullType => (s.reportPartial "partial record without end(1)").emit it.offset it.fragment
    | kFirstType =>
      { s.reportPartial "partial record without end(2)" with
        inFragmentedRecord := true
        scratch := it.fragment
        prospectiveRecordOffset := it.offset }
    | kMiddleType =>
      if s.inFragmentedRecord then { s with scratch := s.scratch ++ it.fragment }
      else s.report it.fragment.length "missing start of fragmented record(1)"
    | kLastType =>
      if s.inFragmentedRecord then s.emit s.prospectiveRecordOffset (s.scratch ++ it.fragment)
      else s.report it.fragment.length "missing start of fragmented record(2)"
    | kEof => { s with stopped := true }
    | kBadRecord =>
      if s.inFragmentedRecord then
        { s.report s.scratch.length "error in middle of record" with
          inFragmentedRecord := false
          scratch := [] }
      else s
    | unknown =>
      { s.report (it.fragment.length + if s.inFragmentedRecord then s.scratch.length else 0)
          ("unknown record type " ++ toString unknown) with
        inFragmentedRecord := false
        scratch := [] }

def run (s : Assembly) (items : List Item) : Assembly := items.foldl step s

theorem run_append (s : Assembly) (a b : List Item) : s.run (a ++ b) = (s.run a).run b :=
  foldl_append

theorem run_of_stopped {s : Assembly} (h : s.stopped = true) (items : List Item) :
    s.run items = s := by
  induction items with
  | nil => rfl
  | cons it items ih =>
    show (s.step it).run items = s
    rw [step, if_pos h, ih]

end Assembly

namespace Reader

variable {crc : Checksum}

/-- The rest of `readAll` after one call. -/
def readOn (crc : Checksum) (turns : Nat) :
    Option (Option Bytes × Reader) → Option (List (Nat × Bytes) × Reader)
  | none => none
  | some (none, r) => some ([], r)
  | some (some record, r) =>
    (readAll crc turns r).map fun (records, r') => ((r.lastRecordOffset, record) :: records, r')

theorem readAll_succ (crc : Checksum) (turns : Nat) (r : Reader) :
    readAll crc (turns + 1) r = readOn crc turns (r.readRecord crc) := by
  rw [readAll]
  rfl

theorem length_blockItems_le (crc : Checksum) (checksum eof : Bool) (pos : Nat) (buffer : Bytes) :
    (blockItems crc checksum eof pos buffer).length ≤ buffer.length := by
  have hheader : 0 < kHeaderSize := by decide
  fun_induction blockItems crc checksum eof pos buffer with
  | case1 => exact Nat.zero_le _
  | case2 => exact Nat.zero_le _
  | case3 =>
    rw [length_singleton]
    omega
  | case4 =>
    rw [length_singleton]
    omega
  | case5 =>
    rw [length_singleton]
    omega
  | case6 _ _ _ _ _ _ _ _ ih =>
    rw [length_drop] at ih
    rw [length_cons]
    omega

theorem length_fileItems_le (crc : Checksum) (checksum : Bool) (pos : Nat) (file : Bytes) :
    (fileItems crc checksum pos file).length ≤ file.length := by
  induction h : file.length using Nat.strong_induction_on generalizing pos file with
  | h n ih =>
    obtain hshort | hfull := Nat.lt_or_ge file.length kBlockSize
    · rw [fileItems_of_short hshort, ← h]
      exact length_blockItems_le _ _ _ _ _
    · have hB : 0 < kBlockSize := by decide
      have hrest := ih (file.length - kBlockSize) (by omega) (pos + kBlockSize)
        (file.drop kBlockSize) length_drop
      have hblock := length_blockItems_le crc checksum false pos (file.take kBlockSize)
      rw [length_take, Nat.min_eq_left hfull] at hblock
      rw [fileItems_of_full hfull, length_append]
      omega

theorem length_items_le (crc : Checksum) (r : Reader) : (r.items crc).length ≤ r.left := by
  have hbuffer := length_blockItems_le crc r.checksum r.eof (r.endOfBufferOffset - r.buffer.length)
    r.buffer
  have hfile := length_fileItems_le crc r.checksum r.endOfBufferOffset r.file
  unfold items later left
  rw [length_append]
  split_ifs
  · rw [length_nil]
    omega
  · omega

/-- Reading on gives the records that `s` has after `records`, and its reports if these are
    `told`. -/
def ReadsAs (crc : Checksum) (n : Nat) (result : Option (Option Bytes × Reader))
    (records : List (Nat × Bytes)) (s : Assembly) (told : Prop) : Prop :=
  ∃ out r', readOn crc n result = some (out, r') ∧ s.records = records ++ out ∧
    (told → s.reports = r'.reports)

theorem ReadsAs.imp {n : Nat} {result : Option (Option Bytes × Reader)}
    {records : List (Nat × Bytes)} {s : Assembly} {told told' : Prop}
    (h : ReadsAs crc n result records s told) (himp : told' → told) :
    ReadsAs crc n result records s told' := by
  obtain ⟨out, r', hout, hrec, hrep⟩ := h
  exact ⟨out, r', hout, hrec, fun htold => hrep (himp htold)⟩

theorem readOn_loop {items : List Item} {r : Reader} {o : Nat} (ho : r.initialOffset = o)
    (h : r.buffer.length ≤ r.endOfBufferOffset) (hitems : r.items crc = items)
    {inFragmentedRecord : Bool} (scratch : Bytes) {prospectiveRecordOffset : Nat}
    (hresync : r.resyncing = true → inFragmentedRecord = false)
    (hoffset : inFragmentedRecord = true → o ≤ prospectiveRecordOffset)
    (records : List (Nat × Bytes)) (reports : List Report) {turns n : Nat}
    (hturns : items.length < turns) (hn : items.length ≤ n) :
    ReadsAs crc n (readRecordLoop crc turns r inFragmentedRecord scratch prospectiveRecordOffset)
      records (Assembly.run ⟨inFragmentedRecord, scratch, prospectiveRecordOffset, records, reports,
        false⟩ (items.map (Item.shown o)))
      (o = 0 ∧ r.resyncing = false ∧ reports = r.reports) := by
  induction items generalizing r inFragmentedRecord scratch prospectiveRecordOffset records
    reports turns n with
  | nil =>
    obtain ⟨-, r', hread, hreports⟩ | ⟨it, rest, r', hcons, -⟩ := readPhysicalRecord_items h
    · obtain ⟨turns, rfl⟩ := Nat.exists_eq_succ_of_ne_zero hturns.ne'
      rw [readRecordLoop, hread]
      refine ⟨[], { r' with resyncing := false }, ?_, (append_nil _).symm, fun htold => ?_⟩
      · simp [readOn]
      · exact htold.2.2.trans hreports.symm
    · rw [hitems] at hcons
      cases hcons
  | cons it rest ih =>
    obtain ⟨hnil, -⟩ | ⟨it', rest', r', hcons, hread, htakes⟩ := readPhysicalRecord_items h
    · rw [hitems] at hnil
      cases hnil
    · rw [hitems] at hcons
      obtain ⟨rfl, rfl⟩ := List.cons.inj hcons
      obtain ⟨turns, rfl⟩ := Nat.exists_eq_succ_of_ne_zero (Nat.ne_zero_of_lt hturns)
      obtain ⟨n, rfl⟩ := Nat.exists_eq_succ_of_ne_zero (Nat.ne_zero_of_lt hn)
      rw [length_cons] at hturns hn
      have ho' : r'.initialOffset = o := htakes.initialOffset.trans ho
      rw [ho] at hread
      -- the loop goes on
      have hgoOn : ∀ (resyncing : Bool) (told reports' : List Report) (inFragmentedRecord : Bool)
          (scratch : Bytes) (offset : Nat), (resyncing = true → inFragmentedRecord = false) →
          (inFragmentedRecord = true → o ≤ offset) →
          ReadsAs crc (n + 1) (readRecordLoop crc turns
              { r' with resyncing := resyncing, reports := told } inFragmentedRecord scratch offset)
            records (Assembly.run ⟨inFragmentedRecord, scratch, offset, records, reports', false⟩
              (rest.map (Item.shown o))) (o = 0 ∧ resyncing = false ∧ reports' = told) :=
        fun resyncing told reports' inFragmentedRecord scratch offset hres hoff =>
          ih (r := { r' with resyncing := resyncing, reports := told }) ho' htakes.buffered
            htakes.items scratch hres hoff records reports' (Nat.lt_of_succ_lt_succ hturns)
            (Nat.le_of_succ_le hn)
      -- a record is returned, and the next call starts over
      have hemit : ∀ (told reports' : List Report) (record : Bytes) (offset : Nat), o ≤ offset →
          ReadsAs crc (n + 1) (some (some record,
              { r' with resyncing := false, reports := told, lastRecordOffset := offset }))
            records (Assembly.run ⟨false, [], 0, records ++ [(offset, record)], reports', false⟩
              (rest.map (Item.shown o))) (o = 0 ∧ reports' = told) := by
        intro told reports' record offset hoff
        obtain ⟨r₁, hr₁⟩ : ∃ r₁ : Reader,
          r₁ = { r' with resyncing := false, reports := told, lastRecordOffset := offset } := ⟨_, rfl⟩
        have ho₁ : r₁.initialOffset = o := hr₁ ▸ ho'
        have hitems₁ : r₁.items crc = rest := hr₁ ▸ htakes.items
        have hleft : rest.length < r₁.left + 1 := by
          rw [← hitems₁]
          exact Nat.lt_succ_of_le (length_items_le crc r₁)
        obtain ⟨out, r₂, hout, hrec, hrep⟩ := ih ho₁ (hr₁ ▸ htakes.buffered) hitems₁ []
          (fun _ => rfl) (fun hfalse => absurd hfalse Bool.false_ne_true)
          (records ++ [(offset, record)]) reports' hleft (Nat.le_of_succ_le_succ hn)
        have hnext : r₁.readRecord crc = readRecordLoop crc (r₁.left + 1) r₁ false [] 0 := by
          unfold readRecord
          rw [ho₁, if_neg]
          rw [hr₁]
          exact not_lt.mpr hoff
        rw [← hr₁]
        refine ⟨(offset, record) :: out, r₂, ?_, hrec.trans (append_assoc _ _ _), fun htold => ?_⟩
        · rw [readOn, readAll_succ, hnext, hout, hr₁]
          rfl
        · exact hrep ⟨htold.1, by rw [hr₁], by rw [hr₁]; exact htold.2⟩
      obtain ⟨told, htold, hplain⟩ := reportDrop_eq { r' with resyncing := false }
      obtain ⟨hposition, hfound, hshown⟩ := Item.shown_cases o it
      have hrun : ∀ s : Assembly, s.run ((it :: rest).map (Item.shown o)) =
          (s.step (it.shown o)).run (rest.map (Item.shown o)) := fun _ => rfl
      rw [readRecordLoop, hread, hrun, Assembly.step, if_neg Bool.false_ne_true]
      rw [← htakes.position] at hposition
      generalize it.shown o = sh at *
      obtain ⟨code, fragment, position, found⟩ := sh
      dsimp only at hposition hfound hshown ⊢
      have hreports : o = 0 ∧ r.resyncing = false ∧ reports = r.reports →
          reports ++ found = r'.reports := by
        rintro ⟨hzero, -, heq⟩
        rw [htakes.reports (ho.trans hzero), heq, hfound]
      have htelling : ∀ bytes reason, o = 0 ∧ r.resyncing = false ∧ reports = r.reports →
          reports ++ found ++ [(bytes, reason)] = told bytes reason := by
        intro bytes reason htold
        rw [hplain (ho'.trans htold.1), hreports htold]
      rw [← hposition, htakes.resyncing]
      by_cases hres : r.resyncing = true ∧ (code = kMiddleType ∨ code = kLastType)
      · -- the rest of a record is passed over
        obtain ⟨hres, hcode⟩ := hres
        have hfalse : o = 0 ∧ r.resyncing = false ∧ reports = r.reports → False := by
          rintro ⟨-, hno, -⟩
          exact Bool.false_ne_true (hno.symm.trans hres)
        rw [hresync hres] at hoffset ⊢
        obtain rfl | rfl := hcode
        · rw [if_pos (by rw [hres]; rfl)]
          exact (hgoOn r'.resyncing r'.reports _ false scratch _ (fun _ => rfl) hoffset).imp
            fun htold => (hfalse htold).elim
        · rw [if_neg (by rw [hres]; decide), if_pos (by rw [hres]; rfl)]
          exact (hgoOn false r'.reports _ false scratch _ (fun _ => rfl) hoffset).imp
            fun htold => (hfalse htold).elim
      · have hskip : ∀ c, c = kMiddleType ∨ c = kLastType → ¬(r.resyncing && code == c) = true := by
          intro c hc hboth
          rw [Bool.and_eq_true, beq_iff_eq] at hboth
          exact hres ⟨hboth.1, hboth.2 ▸ hc⟩
        rw [if_neg (hskip _ (Or.inl rfl)), if_neg (hskip _ (Or.inr rfl))]
        simp only [reportCorruption, htold]
        match code with
        | 1 =>
          by_cases hpart : (inFragmentedRecord && !scratch.isEmpty) = true
          · simp only [Assembly.reportPartial, hpart, ↓reduceIte]
            exact (hemit _ _ fragment _ (hshown (by decide))).imp
              fun htold => ⟨htold.1, htelling _ _ htold⟩
          · simp only [Assembly.reportPartial, hpart]
            exact (hemit r'.reports _ fragment _ (hshown (by decide))).imp
              fun htold => ⟨htold.1, hreports htold⟩
        | 2 =>
          by_cases hpart : (inFragmentedRecord && !scratch.isEmpty) = true
          · simp only [Assembly.reportPartial, hpart, ↓reduceIte]
            exact (hgoOn false _ _ true fragment _ nofun fun _ => hshown (by decide)).imp
              fun htold => ⟨htold.1, rfl, htelling _ _ htold⟩
          · simp only [Assembly.reportPartial, hpart]
            exact (hgoOn false r'.reports _ true fragment _ nofun fun _ => hshown (by decide)).imp
              fun htold => ⟨htold.1, rfl, hreports htold⟩
        | 3 =>
          cases inFragmentedRecord with
          | true =>
            exact (hgoOn false r'.reports _ true _ _ nofun hoffset).imp
              fun htold => ⟨htold.1, rfl, hreports htold⟩
          | false =>
            exact (hgoOn false _ _ false scratch _ nofun hoffset).imp
              fun htold => ⟨htold.1, rfl, htelling _ _ htold⟩
        | 4 =>
          cases inFragmentedRecord with
          | true =>
            exact (hemit r'.reports _ (scratch ++ fragment) _ (hoffset rfl)).imp
              fun htold => ⟨htold.1, hreports htold⟩
          | false =>
            exact (hgoOn false _ _ false scratch _ nofun hoffset).imp
              fun htold => ⟨htold.1, rfl, htelling _ _ htold⟩
        | 5 =>
          refine ⟨[], { r' with resyncing := false }, rfl, ?_, fun htold => ?_⟩
          · exact (congrArg Assembly.records (Assembly.run_of_stopped rfl _)).trans
              (append_nil _).symm
          · exact (congrArg Assembly.reports (Assembly.run_of_stopped rfl _)).trans (hreports htold)
        | 6 =>
          cases inFragmentedRecord with
          | true =>
            exact (hgoOn false _ _ false [] _ nofun nofun).imp
              fun htold => ⟨htold.1, rfl, htelling _ _ htold⟩
          | false =>
            exact (hgoOn false r'.reports _ false scratch _ nofun nofun).imp
              fun htold => ⟨htold.1, rfl, hreports htold⟩
        | 0 =>
          exact (hgoOn false _ _ false [] _ nofun nofun).imp
            fun htold => ⟨htold.1, rfl, htelling _ _ htold⟩
        | code + 7 =>
          exact (hgoOn false _ _ false [] _ nofun nofun).imp
            fun htold => ⟨htold.1, rfl, htelling _ _ htold⟩

end Reader

theorem readLog_eq (crc : Checksum) (checksum : Bool) (file : Bytes) :
    readLog crc checksum file =
      some ((Assembly.start.run (fileItems crc checksum 0 file)).records,
        (Assembly.start.run (fileItems crc checksum 0 file)).reports) := by
  have hitems : (Reader.new file checksum 0).items crc = fileItems crc checksum 0 file :=
    Reader.items_of_short (by decide : 0 < kHeaderSize)
  obtain ⟨out, r', hout, hrec, hrep⟩ := Reader.readOn_loop (o := 0) rfl (Nat.zero_le _) hitems []
    (fun _ => rfl) (fun _ => Nat.zero_le 0) [] []
    (Nat.lt_succ_of_le (hitems ▸ Reader.length_items_le crc (Reader.new file checksum 0)))
    (Reader.length_fileItems_le crc checksum 0 file)
  have hfirst : (Reader.new file checksum 0).readRecord crc =
      Reader.readRecordLoop crc ((Reader.new file checksum 0).left + 1)
        (Reader.new file checksum 0) false [] 0 := rfl
  rw [Item.shown_zero, List.map_id] at hrec hrep
  rw [readLog, Reader.readAll_succ, hfirst, hout]
  exact congrArg some (Prod.ext hrec.symm (hrep ⟨rfl, rfl, rfl⟩).symm)

end LevelDB.Log
