/-
  Reading a log from an offset (`initial_offset` in `db/log_reader.h`).

  The reader skips to a block and takes what starts before the offset for bad records. Since no
  fragment crosses the end of a block, skipping passes over whole fragments only (`run_skip`).
-/
import LevelDB.Log.ReadBack

namespace LevelDB.Log

open List

def readFrom (crc : Checksum) (checksum : Bool) (initialOffset : Nat) (file : Bytes) :
    Option (List (Nat × Bytes)) :=
  ((Reader.new file checksum initialOffset).readAll crc (file.length + 1)).map Prod.fst

def blockStartLocation (initialOffset : Nat) : Nat :=
  (Reader.new [] true initialOffset).skipToInitialBlock.endOfBufferOffset

variable {crc : Checksum} {checksum : Bool} {o : Nat}

theorem readFrom_eq (crc : Checksum) (checksum : Bool) (o : Nat) (file : Bytes) :
    readFrom crc checksum o file = some (Assembly.start.run
      ((fileItems crc checksum (blockStartLocation o)
        (file.drop (blockStartLocation o))).map (Item.shown o))).records := by
  obtain ⟨r, hr⟩ : ∃ r, (Reader.new file checksum o).skipToInitialBlock = r := ⟨_, rfl⟩
  have hfirst : (Reader.new file checksum o).readRecord crc =
      Reader.readRecordLoop crc (r.left + 1) r false [] 0 := by
    rw [← hr]
    unfold Reader.readRecord
    obtain rfl | hpos := Nat.eq_zero_or_pos o
    · rfl
    · have hskip : (Reader.new file checksum o).lastRecordOffset <
          (Reader.new file checksum o).initialOffset := hpos
      rw [if_pos hskip]
  have hitems : r.items crc = fileItems crc checksum (blockStartLocation o)
      (file.drop (blockStartLocation o)) := by
    rw [← hr]
    exact Reader.items_of_short (by decide : 0 < kHeaderSize)
  have hlen := Reader.length_fileItems_le crc checksum (blockStartLocation o)
    (file.drop (blockStartLocation o))
  rw [length_drop] at hlen
  obtain ⟨out, r', hout, hrec, -⟩ := Reader.readOn_loop (o := o) (hr ▸ rfl)
    (hr ▸ Nat.zero_le _) hitems [] (fun _ => rfl) (fun hfalse => absurd hfalse Bool.false_ne_true)
    [] [] (Nat.lt_succ_of_le (hitems ▸ Reader.length_items_le crc r)) (hlen.trans (Nat.sub_le _ _))
  rw [readFrom, Reader.readAll_succ, hfirst, hout]
  exact congrArg some hrec.symm

/-! ## Fragments before the offset -/

theorem startAt_le_stop (f : Fragment) (pos : Nat) : startAt pos ≤ startAt (f.stop pos) := by
  show _ ≤ startAt pos + kHeaderSize + f.payload.length + _
  omega

theorem map_shown_itemsOf {fs : List Fragment} {pos : Nat} (h : o ≤ startAt pos) :
    (itemsOf pos fs).map (Item.shown o) = itemsOf pos fs := by
  induction fs generalizing pos with
  | nil => rfl
  | cons f fs ih =>
    rw [itemsOf, map_cons, ih (h.trans (startAt_le_stop f pos)), Item.shown,
      if_neg (by rw [offset_fragment]; exact not_lt.mpr h)]

namespace Assembly

variable {s : Assembly} {pos : Nat}

theorem step_hidden (hs : s.stopped = false) (hin : s.inFragmentedRecord = false) (f : Fragment)
    (h : startAt pos < o) :
    s.step (Item.shown o ⟨f.type.toByte.toNat, f.payload, f.stop pos, []⟩) = s := by
  rw [Item.shown, if_pos (by rwa [offset_fragment]), step, if_neg (ne_true_of_eq_false hs),
    append_nil]
  exact if_neg (ne_true_of_eq_false hin)

theorem run_shown_rest {begins : Bool} {fs : List Fragment} {record : Bytes}
    (h : Spells begins fs record) (hbegins : begins = false) (hs : s.stopped = false)
    (hin : s.inFragmentedRecord = false) :
    ∃ reports, s.run ((itemsOf pos fs).map (Item.shown o)) = { s with reports := reports } := by
  -- a fragment that is shown has no start, which is reported
  have hstep : ∀ (ends : Bool) (payload : Bytes) {s : Assembly} (pos : Nat), s.stopped = false →
      s.inFragmentedRecord = false → ∃ reports,
        s.step (Item.shown o ⟨(fragmentType false ends).toByte.toNat, payload,
          Fragment.stop ⟨fragmentType false ends, payload⟩ pos, []⟩) =
            { s with reports := reports } := by
    intro ends payload s pos hs hin
    by_cases hlt : startAt pos < o
    · exact ⟨s.reports, step_hidden hs hin ⟨fragmentType false ends, payload⟩ hlt⟩
    · rw [Item.shown, if_neg (by rwa [offset_fragment ⟨fragmentType false ends, payload⟩]), step,
        if_neg (ne_true_of_eq_false hs)]
      cases ends with
      | true => exact ⟨_, if_neg (ne_true_of_eq_false hin)⟩
      | false => exact ⟨_, if_neg (ne_true_of_eq_false hin)⟩
  induction h generalizing s pos with
  | ends begins payload =>
    subst hbegins
    exact hstep true payload pos hs hin
  | goesOn begins payload _ ih =>
    subst hbegins
    obtain ⟨reports, hfirst⟩ := hstep false payload pos hs hin
    obtain ⟨reports', hrest⟩ := ih (s := { s with reports := reports }) rfl hs hin
    refine ⟨reports', ?_⟩
    show run (s.step _) _ = _
    rw [hfirst]
    exact hrest

theorem run_shown_record (pos : Nat) {fs : List Fragment} {record : Bytes}
    (h : Spells true fs record) (hs : s.stopped = false) (hin : s.inFragmentedRecord = false) :
    ∃ reports, s.run ((itemsOf pos fs).map (Item.shown o)) =
      if o ≤ startAt pos then s.emit (startAt pos) record else { s with reports := reports } := by
  by_cases hle : o ≤ startAt pos
  · obtain ⟨reason, hrun⟩ : ∃ reason, s.run (itemsOf pos fs) =
        (s.reportPartial reason).emit (startAt pos) record := run_record h hs
    refine ⟨[], ?_⟩
    rw [map_shown_itemsOf hle, hrun, if_pos hle, reportPartial_of_clean hin]
  · simp only [if_neg hle]
    cases h with
    | ends =>
      exact ⟨s.reports, step_hidden hs hin ⟨fragmentType true true, record⟩ (not_le.mp hle)⟩
    | @goesOn _ payload fs rest h =>
      obtain ⟨reports, hrest⟩ := run_shown_rest (o := o) h rfl hs hin
      refine ⟨reports, ?_⟩
      show run (s.step _) _ = _
      rw [step_hidden hs hin ⟨fragmentType true false, payload⟩ (not_le.mp hle)]
      exact hrest

end Assembly

theorem run_shown_records (records : List Bytes) (pos : Nat) {s : Assembly}
    (hs : s.stopped = false) (hin : s.inFragmentedRecord = false) :
    (s.run ((itemsOf pos (layout pos records).flatten).map (Item.shown o))).records =
      s.records ++ (placed pos records).filter fun p => decide (o ≤ p.1) := by
  induction records generalizing pos s with
  | nil => exact (append_nil _).symm
  | cons record records ih =>
    obtain ⟨hspells, -⟩ := fragmentsOf_spec pos record
    obtain ⟨reports, hrun⟩ := Assembly.run_shown_record (o := o) pos hspells hs hin
    rw [layout, flatten_cons, itemsOf_append, map_append, Assembly.run_append, hrun, placed,
      filter_cons]
    by_cases hle : o ≤ startAt pos
    · rw [if_pos hle, if_pos (decide_eq_true hle)]
      exact (ih _ (s := s.emit (startAt pos) record) hs rfl).trans (append_assoc _ _ _)
    · rw [if_neg hle, if_neg (ne_true_of_eq_false (decide_eq_false hle))]
      exact ih _ (s := { s with reports := reports }) hs hin

/-! ## Skipping blocks -/

theorem startAt_eq {f : Fragment} {pos b : Nat} (hb : b % kBlockSize = 0) (hle : pos ≤ b)
    (hroom : startAt pos % kBlockSize + kHeaderSize + f.payload.length ≤ kBlockSize)
    (hlt : b < f.stop pos) : startAt pos = b := by
  have hpad : padAt pos = 0 ∨
      pos + padAt pos = pos + (kBlockSize - pos % kBlockSize) ∧ padAt pos < kHeaderSize := by
    unfold padAt
    split_ifs with h
    · exact Or.inr ⟨rfl, h⟩
    · exact Or.inl rfl
  unfold Fragment.stop startAt kBlockSize kHeaderSize at *
  omega

theorem startAt_of_mod {b : Nat} (hb : b % kBlockSize = 0) : padAt b = 0 ∧ startAt b = b := by
  have hpad : padAt b = 0 := by
    unfold padAt
    rw [hb]
    rfl
  exact ⟨hpad, by rw [startAt, hpad, Nat.add_zero]⟩

theorem run_skip (crc : Checksum) {fs : List Fragment} {pos b : Nat} (hlaid : Laid pos fs)
    (hb : b % kBlockSize = 0) (hle : pos ≤ b) (hskip : ∀ q, startAt q < b → startAt q < o)
    {s : Assembly} (hs : s.stopped = false) (hin : s.inFragmentedRecord = false) :
    ∃ post, post <:+ fs ∧ (laidBytes crc pos fs).drop (b - pos) = laidBytes crc b post ∧
      Laid b post ∧ s.run ((itemsOf pos fs).map (Item.shown o)) =
        s.run ((itemsOf b post).map (Item.shown o)) := by
  induction fs generalizing pos with
  | nil => exact ⟨[], suffix_refl _, drop_nil, trivial, rfl⟩
  | cons f fs ih =>
    obtain ⟨hroom, hrest⟩ := hlaid
    by_cases hstop : f.stop pos ≤ b
    · obtain ⟨post, hsuffix, hdrop, hlaid', hrun⟩ := ih hrest hstop
      have hstart : startAt pos < b := by
        unfold Fragment.stop kHeaderSize at hstop
        omega
      refine ⟨post, hsuffix.trans (suffix_cons f fs), ?_, hlaid', ?_⟩
      · have hsize : (List.replicate (padAt pos) (0 : UInt8) ++
            emitPhysicalRecord crc f.type f.payload).length = f.stop pos - pos := by
          rw [length_append, length_replicate, length_emitPhysicalRecord, Fragment.stop,
            startAt]
          omega
        have hpos : b - pos = f.stop pos - pos + (b - f.stop pos) := by
          have : pos ≤ f.stop pos := by
            unfold Fragment.stop startAt
            omega
          omega
        rw [laidBytes, ← append_assoc, hpos, ← drop_drop, drop_left' hsize, hdrop]
      · rw [← hrun]
        show Assembly.run (s.step _) _ = _
        rw [Assembly.step_hidden hs hin f (hskip pos hstart)]
    · -- the fragment starts at the boundary
      have hstart := startAt_eq hb hle hroom (not_le.mp hstop)
      obtain ⟨hpad, hself⟩ := startAt_of_mod hb
      have hsame : f.stop b = f.stop pos := by
        rw [Fragment.stop, Fragment.stop, hself, hstart]
      have hdiff : b - pos = padAt pos := by
        unfold startAt at hstart
        omega
      refine ⟨f :: fs, suffix_refl _, ?_, ⟨?_, ?_⟩, ?_⟩
      · rw [laidBytes, laidBytes, hdiff, drop_left' length_replicate, hpad, hsame]
        rfl
      · rwa [hself, ← hstart]
      · rwa [hsame]
      · rw [itemsOf, itemsOf, hsame]

theorem blockStartLocation_spec (o : Nat) : blockStartLocation o % kBlockSize = 0 ∧
    ∀ q, startAt q < blockStartLocation o → startAt q < o := by
  have heq : blockStartLocation o = if kBlockSize - 6 < o % kBlockSize then
      o - o % kBlockSize + kBlockSize else o - o % kBlockSize := rfl
  rw [heq]
  constructor
  · split_ifs
    · unfold kBlockSize
      omega
    · unfold kBlockSize
      omega
  · intro q hq
    have hroom := startAt_room q
    split_ifs at hq
    · unfold kBlockSize kHeaderSize at *
      omega
    · omega

theorem ne_zero_layout (pos : Nat) (records : List Bytes) :
    ∀ f ∈ (layout pos records).flatten, f.type ≠ .zero := by
  induction records generalizing pos with
  | nil => exact nofun
  | cons record records ih =>
    exact forall_mem_append.mpr ⟨(fragmentsOf_spec pos record).1.ne_zero, ih _⟩

/-- **Reading from an offset**: whatever writers have written, the records returned are those
    whose first fragment starts at or after the offset, in order, and `LastRecordOffset` is where
    it starts. -/
theorem log_from_offset (crc : Checksum) (checksum : Bool) (sessions : List (List Bytes)) (o : Nat) :
    readFrom crc checksum o (writeSessions crc [] sessions) =
        some ((placed 0 sessions.flatten).filter fun p => decide (o ≤ p.1)) ∧
      (placed 0 sessions.flatten).map Prod.snd = sessions.flatten := by
  refine ⟨?_, map_snd_placed 0 _⟩
  obtain ⟨hb, hskip⟩ := blockStartLocation_spec o
  obtain ⟨post, hsuffix, hdrop, hlaid, hrun⟩ := run_skip crc
    (laid_layout 0 sessions.flatten) hb (Nat.zero_le _) hskip (s := .start) rfl rfl
  have hitems : fileItems crc checksum (blockStartLocation o)
      ((logFile crc sessions.flatten).drop (blockStartLocation o)) =
        itemsOf (blockStartLocation o) post := by
    have hzero : ∀ f ∈ post, f.type ≠ .zero :=
      fun f hf => ne_zero_layout 0 sessions.flatten f (hsuffix.subset hf)
    have hall : itemsFrom crc checksum _ _ = _ := itemsFrom_laid hlaid hzero []
    rw [append_nil, itemsFrom_nil, append_nil, itemsFrom_block hb, ← hdrop] at hall
    exact hall
  rw [readFrom_eq, writeSessions_nil, hitems, ← hrun, run_shown_records _ _ rfl rfl]
  rfl

end LevelDB.Log
