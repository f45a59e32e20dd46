/-
  Version edits as bytes (`db/version_edit.cc`).

  An edit on disk is a list of fields, each a tag with its values. `EncodeTo` writes them one
  after the other and the loop of `DecodeFrom` takes one in each turn; an unknown tag, a value
  that does not decode, or a rest without a tag is an error.
-/
import LevelDB.Util.Coding
import LevelDB.Version.Builder

namespace LevelDB

open List

/-! ## Edits with their keys as bytes -/

/-- `FileMetaData`, with the bytes of the keys. -/
structure FileRecord where
  number : Nat
  fileSize : Nat
  smallest : Bytes
  largest : Bytes
  deriving DecidableEq, Repr

/-- `class VersionEdit`, with its strings as bytes. -/
@[ext] structure EditRecord where
  comparator : Option Bytes := none
  logNumber : Option Nat := none
  prevLogNumber : Option Nat := none
  nextFileNumber : Option Nat := none
  lastSequence : Option Nat := none
  compactPointers : List (Nat × Bytes) := []
  deletedFiles : List (Nat × Nat) := []
  newFiles : List (Nat × FileRecord) := []
  deriving DecidableEq, Repr

inductive Field where
  | comparator (name : Bytes)
  | logNumber (number : Nat)
  | prevLogNumber (number : Nat)
  | nextFileNumber (number : Nat)
  | lastSequence (number : Nat)
  | compactPointer (level : Nat) (key : Bytes)
  | deletedFile (level number : Nat)
  | newFile (level : Nat) (f : FileRecord)
  deriving DecidableEq, Repr

/-- `enum Tag`. -/
def Field.tag : Field → Nat
  | .comparator _ => 1
  | .logNumber _ => 2
  | .nextFileNumber _ => 3
  | .lastSequence _ => 4
  | .compactPointer _ _ => 5
  | .deletedFile _ _ => 6
  | .newFile _ _ => 7
  | .prevLogNumber _ => 9

/-! ## Encoding -/

def Field.values : Field → Bytes
  | .comparator name => putLengthPrefixedSlice name
  | .logNumber number => encodeVarint64 number
  | .prevLogNumber number => encodeVarint64 number
  | .nextFileNumber number => encodeVarint64 number
  | .lastSequence number => encodeVarint64 number
  | .compactPointer level key => encodeVarint32 level ++ putLengthPrefixedSlice key
  | .deletedFile level number => encodeVarint32 level ++ encodeVarint64 number
  | .newFile level f => encodeVarint32 level ++ (encodeVarint64 f.number ++
      (encodeVarint64 f.fileSize ++ (putLengthPrefixedSlice f.smallest ++
        putLengthPrefixedSlice f.largest)))

def Field.encode (f : Field) : Bytes := encodeVarint32 f.tag ++ f.values

namespace EditRecord

def optionalFields (r : EditRecord) : List Field :=
  r.comparator.toList.map .comparator ++ r.logNumber.toList.map .logNumber ++
    r.prevLogNumber.toList.map .prevLogNumber ++ r.nextFileNumber.toList.map .nextFileNumber ++
    r.lastSequence.toList.map .lastSequence

/-- The fields in the order of `EncodeTo`. -/
def fields (r : EditRecord) : List Field :=
  r.optionalFields ++ r.compactPointers.map (fun p => .compactPointer p.1 p.2) ++
    r.deletedFiles.map (fun p => .deletedFile p.1 p.2) ++
    r.newFiles.map (fun p => .newFile p.1 p.2)

def encodeTo (r : EditRecord) : Bytes := r.fields.flatMap Field.encode

/-! ## Decoding -/

def set (r : EditRecord) : Field → EditRecord
  | .comparator name => { r with comparator := some name }
  | .logNumber number => { r with logNumber := some number }
  | .prevLogNumber number => { r with prevLogNumber := some number }
  | .nextFileNumber number => { r with nextFileNumber := some number }
  | .lastSequence number => { r with lastSequence := some number }
  | .compactPointer level key => { r with compactPointers := r.compactPointers ++ [(level, key)] }
  | .deletedFile level number =>
    { r with deletedFiles := VersionEdit.insertDeleted (level, number) r.deletedFiles }
  | .newFile level f => { r with newFiles := r.newFiles ++ [(level, f)] }

end EditRecord

def getInternalKey (input : Bytes) : Except Status (Bytes × Bytes) :=
  orError "VersionEdit: bad InternalKey"
    ((getLengthPrefixedSlice input).filter fun p => !p.1.isEmpty)

def getLevel (input : Bytes) : Except Status (Nat × Bytes) :=
  orError "VersionEdit: bad level" ((getVarint32 input).filter fun p => p.1 < kNumLevels)

/-- The values of a field with the given tag: the body of the loop in `DecodeFrom`. -/
def getValues (tag : Nat) (input : Bytes) : Except Status (Field × Bytes) :=
  match tag with
  | 1 => do
    let (name, input) ← orError "VersionEdit: comparator name" (getLengthPrefixedSlice input)
    return (.comparator name, input)
  | 2 => do
    let (number, input) ← orError "VersionEdit: log number" (getVarint64 input)
    return (.logNumber number, input)
  | 9 => do
    let (number, input) ← orError "VersionEdit: previous log number" (getVarint64 input)
    return (.prevLogNumber number, input)
  | 3 => do
    let (number, input) ← orError "VersionEdit: next file number" (getVarint64 input)
    return (.nextFileNumber number, input)
  | 4 => do
    let (number, input) ← orError "VersionEdit: last sequence number" (getVarint64 input)
    return (.lastSequence number, input)
  | 5 => do
    let (level, input) ← getLevel input
    let (key, input) ← getInternalKey input
    return (.compactPointer level key, input)
  | 6 => do
    let (level, input) ← getLevel input
    let (number, input) ← orError "VersionEdit: deleted file" (getVarint64 input)
    return (.deletedFile level number, input)
  | 7 => do
    let (level, input) ← getLevel input
    let (number, input) ← orError "VersionEdit: new-file entry" (getVarint64 input)
    let (fileSize, input) ← orError "VersionEdit: new-file entry" (getVarint64 input)
    let (smallest, input) ← getInternalKey input
    let (largest, input) ← getInternalKey input
    return (.newFile level ⟨number, fileSize, smallest, largest⟩, input)
  | 8 => .error (.corruptionErr "VersionEdit: unknown tag 8")
  | _ => .error (.corruptionErr "VersionEdit: unknown tag")

/-- The loop of `DecodeFrom`. A turn takes at least the tag, so that after as many turns as
    there are bytes nothing is left. -/
def decodeLoop : Nat → Bytes → EditRecord → Except Status EditRecord
  | 0, input, r =>
    if input.isEmpty then .ok r else .error (.corruptionErr "VersionEdit: trailing garbage")
  | turns + 1, input, r =>
    match getVarint32 input with
    | none =>
      if input.isEmpty then .ok r else .error (.corruptionErr "VersionEdit: trailing garbage")
    | some (tag, input) => do
      let (field, input) ← getValues tag input
      decodeLoop turns input (r.set field)

def decodeFrom (src : Bytes) : Except Status EditRecord := decodeLoop src.length src {}

/-! ## Reading back -/

def Field.Fits : Field → Prop
  | .comparator name => name.length < 2 ^ 32
  | .logNumber number | .prevLogNumber number | .nextFileNumber number | .lastSequence number =>
    number < 2 ^ 64
  | .compactPointer level key => level < kNumLevels ∧ key ≠ [] ∧ key.length < 2 ^ 32
  | .deletedFile level number => level < kNumLevels ∧ number < 2 ^ 64
  | .newFile level f => level < kNumLevels ∧ f.number < 2 ^ 64 ∧ f.fileSize < 2 ^ 64 ∧
      (f.smallest ≠ [] ∧ f.smallest.length < 2 ^ 32) ∧ f.largest ≠ [] ∧ f.largest.length < 2 ^ 32

theorem getInternalKey_put {key : Bytes} (hne : key ≠ []) (hlen : key.length < 2 ^ 32)
    (rest : Bytes) : getInternalKey (putLengthPrefixedSlice key ++ rest) = .ok (key, rest) := by
  unfold getInternalKey
  rw [getLengthPrefixedSlice_put hlen, Option.filter_some_pos (by simpa using hne)]
  rfl

theorem getLevel_encode {level : Nat} (h : level < kNumLevels) (rest : Bytes) :
    getLevel (encodeVarint32 level ++ rest) = .ok (level, rest) := by
  have hlt : level < 2 ^ 32 := h.trans (by decide)
  unfold getLevel
  rw [getVarint32_encodeVarint32 hlt, Option.filter_some_pos (by simpa using h)]
  rfl

theorem getValues_encode {f : Field} (h : f.Fits) (rest : Bytes) :
    getValues f.tag (f.values ++ rest) = .ok (f, rest) := by
  cases f with
  | comparator name =>
    simp only [Field.tag, Field.values, getValues, getLengthPrefixedSlice_put h]
    rfl
  | logNumber number | prevLogNumber number | nextFileNumber number | lastSequence number =>
    simp only [Field.tag, Field.values, getValues, getVarint64_encodeVarint64 h]
    rfl
  | compactPointer level key =>
    obtain ⟨hlevel, hkey, hlen⟩ := h
    simp only [Field.tag, Field.values, getValues, append_assoc, getLevel_encode hlevel,
      getInternalKey_put hkey hlen, bind, Except.bind]
    rfl
  | deletedFile level number =>
    obtain ⟨hlevel, hnumber⟩ := h
    simp only [Field.tag, Field.values, getValues, append_assoc, getLevel_encode hlevel,
      getVarint64_encodeVarint64 hnumber, orError, bind, Except.bind]
    rfl
  | newFile level f =>
    obtain ⟨hlevel, hnumber, hsize, ⟨hsmallest, hslen⟩, hlargest, hllen⟩ := h
    simp only [Field.tag, Field.values, getValues, append_assoc, getLevel_encode hlevel,
      getVarint64_encodeVarint64 hnumber, getVarint64_encodeVarint64 hsize, orError,
      getInternalKey_put hsmallest hslen, getInternalKey_put hlargest hllen, bind, Except.bind]
    rfl

theorem tag_lt (f : Field) : f.tag < 2 ^ 32 := by
  cases f <;> simp [Field.tag]

theorem encode_ne_nil (f : Field) : f.encode ≠ [] := by
  cases f <;> exact cons_ne_nil _ _

theorem decodeLoop_fields {fields : List Field} (h : ∀ f ∈ fields, f.Fits) {turns : Nat}
    (hturns : fields.length ≤ turns) (r : EditRecord) :
    decodeLoop turns (fields.flatMap Field.encode) r = .ok (fields.foldl EditRecord.set r) := by
  induction fields generalizing turns r with
  | nil =>
    cases turns with
    | zero => rfl
    | succ turns => rfl
  | cons f fields ih =>
    obtain ⟨turns, rfl⟩ := Nat.exists_eq_succ_of_ne_zero (Nat.ne_zero_of_lt hturns)
    have hvalues := getValues_encode (h f mem_cons_self) (fields.flatMap Field.encode)
    rw [flatMap_cons, Field.encode, append_assoc, decodeLoop,
      getVarint32_encodeVarint32 (tag_lt f)]
    dsimp only
    rw [hvalues]
    exact ih (fun g hg => h g (mem_cons_of_mem f hg)) (Nat.le_of_succ_le_succ hturns) _

theorem length_le_length_encode (fields : List Field) :
    fields.length ≤ (fields.flatMap Field.encode).length := by
  induction fields with
  | nil => exact Nat.zero_le _
  | cons f fields ih =>
    have := length_pos_of_ne_nil (encode_ne_nil f)
    rw [flatMap_cons, length_append, length_cons]
    omega

/-- An edit that fits its encoding. The deleted files are a `std::set`. -/
structure EditRecord.Fits (r : EditRecord) : Prop where
  fields : ∀ f ∈ r.fields, f.Fits
  deleted : r.deletedFiles.Pairwise fun p q => p.1 < q.1 ∨ p.1 = q.1 ∧ p.2 < q.2

theorem insertDeleted_last {l : List (Nat × Nat)} {p : Nat × Nat}
    (h : ∀ q ∈ l, q.1 < p.1 ∨ q.1 = p.1 ∧ q.2 < p.2) :
    VersionEdit.insertDeleted p l = l ++ [p] := by
  induction l with
  | nil => rfl
  | cons q l ih =>
    have hq := h q mem_cons_self
    have hne : p ≠ q := by
      rintro rfl
      omega
    rw [VersionEdit.insertDeleted, if_neg (by omega), if_neg hne,
      ih fun x hx => h x (mem_cons_of_mem q hx)]
    rfl

theorem foldl_set_compactPointers (ps : List (Nat × Bytes)) (r : EditRecord) :
    (ps.map fun p => Field.compactPointer p.1 p.2).foldl EditRecord.set r =
      { r with compactPointers := r.compactPointers ++ ps } := by
  induction ps generalizing r with
  | nil => rw [append_nil]; rfl
  | cons p ps ih =>
    rw [map_cons, foldl_cons, ih]
    exact congrArg (fun l => { r with compactPointers := l }) (append_assoc _ _ _)

theorem foldl_set_newFiles (ps : List (Nat × FileRecord)) (r : EditRecord) :
    (ps.map fun p => Field.newFile p.1 p.2).foldl EditRecord.set r =
      { r with newFiles := r.newFiles ++ ps } := by
  induction ps generalizing r with
  | nil => rw [append_nil]; rfl
  | cons p ps ih =>
    rw [map_cons, foldl_cons, ih]
    exact congrArg (fun l => { r with newFiles := l }) (append_assoc _ _ _)

variable {r : EditRecord}

theorem foldl_set_deletedFiles {ps : List (Nat × Nat)}
    (h : (r.deletedFiles ++ ps).Pairwise fun p q => p.1 < q.1 ∨ p.1 = q.1 ∧ p.2 < q.2) :
    (ps.map fun p => Field.deletedFile p.1 p.2).foldl EditRecord.set r =
      { r with deletedFiles := r.deletedFiles ++ ps } := by
  induction ps generalizing r with
  | nil => rw [append_nil]; rfl
  | cons p ps ih =>
    have hlast : VersionEdit.insertDeleted (p.1, p.2) r.deletedFiles = r.deletedFiles ++ [p] :=
      insertDeleted_last fun q hq => (pairwise_append.mp h).2.2 q hq p mem_cons_self
    have hset : r.set (.deletedFile p.1 p.2) = { r with deletedFiles := r.deletedFiles ++ [p] } :=
      congrArg (fun l => { r with deletedFiles := l }) hlast
    rw [map_cons, foldl_cons, hset, ih (by rwa [append_assoc])]
    exact congrArg (fun l => { r with deletedFiles := l }) (append_assoc _ _ _)

theorem foldl_set_optionalFields (r : EditRecord) :
    r.optionalFields.foldl EditRecord.set {} =
      { r with compactPointers := [], deletedFiles := [], newFiles := [] } := by
  obtain ⟨comparator, logNumber, prevLogNumber, nextFileNumber, lastSequence, _, _, _⟩ := r
  cases comparator <;> cases logNumber <;> cases prevLogNumber <;> cases nextFileNumber <;>
    cases lastSequence <;> rfl

theorem decodeFrom_encodeTo (h : r.Fits) : decodeFrom r.encodeTo = .ok r := by
  unfold decodeFrom EditRecord.encodeTo
  rw [decodeLoop_fields h.fields (length_le_length_encode _), EditRecord.fields, foldl_append,
    foldl_append, foldl_append, foldl_set_optionalFields, foldl_set_compactPointers,
    foldl_set_deletedFiles (by exact h.deleted), foldl_set_newFiles]
  rfl

/-! ## Edits that are not read back -/

/-- `DecodeFrom` stops at the field, whatever follows. -/
def Field.Rejected (f : Field) : Prop := ∀ rest, ∃ s, getValues f.tag (f.values ++ rest) = .error s

theorem newFile_rejected {level : Nat} {f : FileRecord} (hlevel : level < kNumLevels)
    (hnumber : f.number < 2 ^ 64) (hsize : f.fileSize < 2 ^ 64) (hsmallest : f.smallest = []) :
    (Field.newFile level f).Rejected := by
  intro rest
  have hkey : ∀ rest, getInternalKey (putLengthPrefixedSlice f.smallest ++ rest) =
      .error (.corruptionErr "VersionEdit: bad InternalKey") := by
    intro rest
    unfold getInternalKey
    rw [hsmallest, getLengthPrefixedSlice_put (by decide)]
    rfl
  refine ⟨.corruptionErr "VersionEdit: bad InternalKey", ?_⟩
  simp only [Field.tag, Field.values, getValues, append_assoc, getLevel_encode hlevel,
    getVarint64_encodeVarint64 hnumber, getVarint64_encodeVarint64 hsize, orError, hkey, bind,
    Except.bind]

theorem decodeLoop_ok_iff {fields : List Field} (h : ∀ f ∈ fields, f.Fits ∨ f.Rejected)
    {turns : Nat} (hturns : fields.length ≤ turns) (r : EditRecord) :
    (∃ r', decodeLoop turns (fields.flatMap Field.encode) r = .ok r') ↔ ∀ f ∈ fields, f.Fits := by
  refine ⟨?_, fun hfits => ⟨_, decodeLoop_fields hfits hturns r⟩⟩
  intro ⟨r', hok⟩
  induction fields generalizing turns r with
  | nil => exact fun f hf => absurd hf not_mem_nil
  | cons f fields ih =>
    obtain ⟨turns, rfl⟩ := Nat.exists_eq_succ_of_ne_zero (Nat.ne_zero_of_lt hturns)
    rw [flatMap_cons, Field.encode, append_assoc, decodeLoop,
      getVarint32_encodeVarint32 (tag_lt f)] at hok
    dsimp only at hok
    obtain hfits | hrejected := h f mem_cons_self
    · rw [getValues_encode hfits] at hok
      rw [forall_mem_cons]
      exact ⟨hfits, ih (fun g hg => h g (mem_cons_of_mem f hg))
        (Nat.le_of_succ_le_succ hturns) _ hok⟩
    · obtain ⟨s, hs⟩ := hrejected (fields.flatMap Field.encode)
      rw [hs] at hok
      cases hok

theorem decodeFrom_ok_iff (h : ∀ f ∈ r.fields, f.Fits ∨ f.Rejected) :
    (∃ r', decodeFrom r.encodeTo = .ok r') ↔ ∀ f ∈ r.fields, f.Fits :=
  decodeLoop_ok_iff h (length_le_length_encode _) {}

/-! ## Edits that have been decoded -/

theorem orError_ok {α : Type} {message : String} {o : Option α} {a : α}
    (h : orError message o = .ok a) : o = some a := by
  cases o with
  | none => cases h
  | some b => exact congrArg some (Except.ok.inj h)

theorem getLevel_lt {input rest : Bytes} {level : Nat} (h : getLevel input = .ok (level, rest)) :
    level < kNumLevels := by
  obtain ⟨-, hlt⟩ := Option.filter_eq_some_iff.mp (orError_ok h)
  exact of_decide_eq_true hlt

theorem getInternalKey_fits {input key rest : Bytes} (h : getInternalKey input = .ok (key, rest)) :
    key ≠ [] ∧ key.length < 2 ^ 32 := by
  obtain ⟨hslice, hne⟩ := Option.filter_eq_some_iff.mp (orError_ok h)
  exact ⟨by simpa using hne, getLengthPrefixedSlice_lt hslice⟩

theorem exists_of_bind_ok {α β : Type} {x : Except Status α} {f : α → Except Status β} {b : β}
    (h : x >>= f = .ok b) : ∃ a, x = .ok a ∧ f a = .ok b := by
  cases x with
  | error s => cases h
  | ok a => exact ⟨a, rfl, h⟩

theorem getValues_fits {tag : Nat} {input rest : Bytes} {f : Field}
    (h : getValues tag input = .ok (f, rest)) : f.Fits := by
  have hnumber : ∀ (make : Nat → Field) {message : String} {input : Bytes},
      (∀ n < 2 ^ 64, (make n).Fits) →
      (orError message (getVarint64 input) >>= fun p => pure (make p.1, p.2)) = .ok (f, rest) →
      f.Fits := by
    intro make message input hmake h
    obtain ⟨⟨n, input'⟩, hread, hdone⟩ := exists_of_bind_ok h
    rw [← (Prod.mk.inj (Except.ok.inj hdone)).1]
    exact hmake n (getVarint64_lt (orError_ok hread))
  unfold getValues at h
  split at h
  · obtain ⟨⟨name, input'⟩, hread, hdone⟩ := exists_of_bind_ok h
    rw [← (Prod.mk.inj (Except.ok.inj hdone)).1]
    exact getLengthPrefixedSlice_lt (orError_ok hread)
  · exact hnumber .logNumber (fun _ hn => hn) h
  · exact hnumber .prevLogNumber (fun _ hn => hn) h
  · exact hnumber .nextFileNumber (fun _ hn => hn) h
  · exact hnumber .lastSequence (fun _ hn => hn) h
  · obtain ⟨⟨level, input₁⟩, hlevel, h⟩ := exists_of_bind_ok h
    obtain ⟨⟨key, input₂⟩, hkey, hdone⟩ := exists_of_bind_ok h
    rw [← (Prod.mk.inj (Except.ok.inj hdone)).1]
    exact ⟨getLevel_lt hlevel, getInternalKey_fits hkey⟩
  · obtain ⟨⟨level, input₁⟩, hlevel, h⟩ := exists_of_bind_ok h
    exact hnumber (.deletedFile level) (fun _ hn => ⟨getLevel_lt hlevel, hn⟩) h
  · obtain ⟨⟨level, input₁⟩, hlevel, h⟩ := exists_of_bind_ok h
    obtain ⟨⟨number, input₂⟩, hnum, h⟩ := exists_of_bind_ok h
    obtain ⟨⟨fileSize, input₃⟩, hsize, h⟩ := exists_of_bind_ok h
    obtain ⟨⟨smallest, input₄⟩, hsmallest, h⟩ := exists_of_bind_ok h
    obtain ⟨⟨largest, input₅⟩, hlargest, hdone⟩ := exists_of_bind_ok h
    rw [← (Prod.mk.inj (Except.ok.inj hdone)).1]
    exact ⟨getLevel_lt hlevel, getVarint64_lt (orError_ok hnum), getVarint64_lt (orError_ok hsize),
      getInternalKey_fits hsmallest, getInternalKey_fits hlargest⟩
  · cases h
  · cases h

/-- The order of `std::set<std::pair<int, uint64_t>>`. -/
def DeletedBefore (p q : Nat × Nat) : Prop := p.1 < q.1 ∨ p.1 = q.1 ∧ p.2 < q.2

theorem pairwise_insertDeleted {p : Nat × Nat} {l : List (Nat × Nat)}
    (h : l.Pairwise DeletedBefore) : (VersionEdit.insertDeleted p l).Pairwise DeletedBefore := by
  induction l with
  | nil => exact pairwise_singleton _ _
  | cons q l ih =>
    obtain ⟨hq, hl⟩ := pairwise_cons.mp h
    rw [VersionEdit.insertDeleted]
    split_ifs with hlt heq
    · grind [pairwise_cons, DeletedBefore]
    · exact h
    · grind [pairwise_cons, mem_insertDeleted, Prod.ext, DeletedBefore]

theorem mem_optionalFields {f : Field} : f ∈ r.optionalFields ↔
    (∃ name, r.comparator = some name ∧ .comparator name = f) ∨
      (∃ n, r.logNumber = some n ∧ .logNumber n = f) ∨
      (∃ n, r.prevLogNumber = some n ∧ .prevLogNumber n = f) ∨
      (∃ n, r.nextFileNumber = some n ∧ .nextFileNumber n = f) ∨
      ∃ n, r.lastSequence = some n ∧ .lastSequence n = f := by
  unfold EditRecord.optionalFields
  simp only [mem_append, List.mem_map, Option.mem_toList, or_assoc]

theorem mem_fields {f : Field} : f ∈ r.fields ↔
    f ∈ r.optionalFields ∨ (∃ p ∈ r.compactPointers, .compactPointer p.1 p.2 = f) ∨
      (∃ p ∈ r.deletedFiles, .deletedFile p.1 p.2 = f) ∨
      ∃ p ∈ r.newFiles, .newFile p.1 p.2 = f := by
  unfold EditRecord.fields
  simp

theorem mem_fields_set {f g : Field} (h : g ∈ (r.set f).fields) :
    g = f ∨ g ∈ r.fields := by
  rw [mem_fields, mem_optionalFields] at h ⊢
  cases f with
  | compactPointer level key =>
    obtain h | ⟨p, hp, rfl⟩ | h := h
    · exact .inr (.inl h)
    · rcases mem_append.mp hp with hp | hp
      · exact .inr (.inr (.inl ⟨p, hp, rfl⟩))
      · rw [mem_singleton.mp hp]
        exact .inl rfl
    · exact .inr (.inr (.inr h))
  | deletedFile level number =>
    obtain h | h | ⟨p, hp, rfl⟩ | h := h
    · exact .inr (.inl h)
    · exact .inr (.inr (.inl h))
    · rcases mem_insertDeleted.mp hp with rfl | hp
      · exact .inl rfl
      · exact .inr (.inr (.inr (.inl ⟨p, hp, rfl⟩)))
    · exact .inr (.inr (.inr (.inr h)))
  | newFile level file =>
    obtain h | h | h | ⟨p, hp, rfl⟩ := h
    · exact .inr (.inl h)
    · exact .inr (.inr (.inl h))
    · exact .inr (.inr (.inr (.inl h)))
    · rcases mem_append.mp hp with hp | hp
      · exact .inr (.inr (.inr (.inr ⟨p, hp, rfl⟩)))
      · rw [mem_singleton.mp hp]
        exact .inl rfl
  | comparator | logNumber | prevLogNumber | nextFileNumber | lastSequence =>
    simp only [EditRecord.set, Option.some.injEq, exists_eq_left'] at h
    grind

theorem EditRecord.Fits.set (h : r.Fits) {f : Field} (hf : f.Fits) :
    (r.set f).Fits where
  fields := by
    intro g hg
    rcases mem_fields_set hg with rfl | hg
    · exact hf
    · exact h.fields g hg
  deleted := by
    cases f with
    | deletedFile => exact pairwise_insertDeleted h.deleted
    | _ => exact h.deleted

/-- **Decoded edits** fit their encoding. -/
theorem decodeLoop_fits {turns : Nat} {input : Bytes} {r r' : EditRecord} (hr : r.Fits)
    (h : decodeLoop turns input r = .ok r') : r'.Fits := by
  induction turns generalizing input r with
  | zero =>
    rw [decodeLoop] at h
    split_ifs at h
    rwa [← Except.ok.inj h]
  | succ turns ih =>
    rw [decodeLoop] at h
    cases htag : getVarint32 input with
    | none =>
      rw [htag] at h
      dsimp only at h
      split_ifs at h
      rwa [← Except.ok.inj h]
    | some p =>
      rw [htag] at h
      obtain ⟨⟨f, rest⟩, hvalues, hrest⟩ := exists_of_bind_ok h
      exact ih (hr.set (getValues_fits hvalues)) hrest

theorem decodeFrom_fits {src : Bytes} (h : decodeFrom src = .ok r) : r.Fits :=
  decodeLoop_fits ⟨fun _ hf => absurd hf not_mem_nil, .nil⟩ h

/-- **Version edits.** An edit whose levels are levels, whose keys are not empty and whose strings
    are shorter than 4 GiB is read back, and every edit that has been decoded is read back. -/
theorem edit_round_trip :
    (∀ r : EditRecord, r.Fits → decodeFrom r.encodeTo = .ok r) ∧
      ∀ (src : Bytes) (r : EditRecord), decodeFrom src = .ok r → decodeFrom r.encodeTo = .ok r :=
  ⟨fun _ h => decodeFrom_encodeTo h, fun _ _ h => decodeFrom_encodeTo (decodeFrom_fits h)⟩

theorem edit_round_trip_sample :
    let r : EditRecord :=
      { comparator := some [108], lastSequence := some 7, compactPointers := [(1, [0, 255])]
        deletedFiles := [(1, 4), (2, 3)], newFiles := [(2, ⟨300, 4096, [1], [2, 128]⟩)] }
    decodeFrom r.encodeTo = .ok r := by
  refine edit_round_trip.1 _ ⟨?_, ?_⟩
  · simp [EditRecord.fields, EditRecord.optionalFields, Field.Fits, kNumLevels]
  · simp

theorem encodeTo_longKey {key : Bytes} (hlen : key.length = 2 ^ 32) :
    EditRecord.encodeTo { compactPointers := [(0, key)] } = 5 :: 0 :: 0 :: key := by
  have hzero : encodeVarint32 (key.length % 2 ^ 32) = [0] := by
    rw [hlen]
    rfl
  unfold EditRecord.encodeTo EditRecord.fields EditRecord.optionalFields
  simp only [Option.toList_none, map_nil, nil_append, map_cons, append_nil,
    flatMap_cons, flatMap_nil, Field.encode, Field.tag, Field.values,
    putLengthPrefixedSlice, hzero]
  rfl

theorem decodeFrom_longKey {key : Bytes} (hlen : key.length = 2 ^ 32) :
    decodeFrom (EditRecord.encodeTo { compactPointers := [(0, key)] }) =
      .error (.corruptionErr "VersionEdit: bad InternalKey") := by
  rw [encodeTo_longKey hlen]
  rfl

/-- A compact pointer of `2 ^ 32` bytes is not read back. -/
theorem edit_truncated :
    decodeFrom (EditRecord.encodeTo { compactPointers := [(0, List.replicate (2 ^ 32) 0)] }) =
      .error (.corruptionErr "VersionEdit: bad InternalKey") :=
  decodeFrom_longKey length_replicate

end LevelDB
