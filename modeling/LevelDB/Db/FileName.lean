/-
  File names (`db/filename.cc`): `ParseFileName`.
-/
import LevelDB.Db.Current

namespace LevelDB

open List Option

/-- `enum FileType`. -/
inductive FileType where
  | logFile
  | dbLockFile
  | tableFile
  | descriptorFile
  | currentFile
  | tempFile
  | infoLogFile
  deriving DecidableEq, Repr

/-- `struct ParsedFile`. -/
structure ParsedFile where
  number : Nat
  type : FileType
  deriving DecidableEq, Repr

/-- `std::from_chars` for a 64-bit number, when it has to take all of the characters. -/
def fromChars (cs : List Char) : Option Nat :=
  if cs ≠ [] ∧ cs.all Char.isDigit = true ∧ Nat.ofDigitChars 10 cs 0 < 2 ^ 64 then
    some (Nat.ofDigitChars 10 cs 0)
  else none

def suffixType (suffix : List Char) : Option FileType :=
  if suffix = ".log".toList then some .logFile
  else if suffix = ".sst".toList ∨ suffix = ".ldb".toList then some .tableFile
  else if suffix = ".dbtmp".toList then some .tempFile
  else none

def parseFileName (filename : String) : Option ParsedFile :=
  if filename = "CURRENT" then some ⟨0, .currentFile⟩
  else if filename = "LOCK" then some ⟨0, .dbLockFile⟩
  else if filename = "LOG" ∨ filename = "LOG.old" then some ⟨0, .infoLogFile⟩
  else if "MANIFEST-".toList.isPrefixOf filename.toList then
    (fromChars (filename.toList.drop 9)).map fun num => ⟨num, .descriptorFile⟩
  else if '.' ∈ filename.toList then
    (fromChars (filename.toList.takeWhile (· ≠ '.'))).bind fun num =>
      (suffixType (filename.toList.dropWhile (· ≠ '.'))).map fun type => ⟨num, type⟩
  else none

/-! ## Names that the database gives -/

theorem sixDigits_isDigit (n : Nat) : ∀ c ∈ (sixDigits n).toList, c.isDigit = true := by
  intro c hc
  rw [sixDigits, String.toList_ofList, mem_append] at hc
  obtain hc | hc := hc
  · rw [eq_of_mem_replicate hc]
    rfl
  · exact Nat.isDigit_of_mem_toDigits (by decide) (le_refl 10) hc

theorem fromChars_sixDigits {n : Nat} (h : n < 2 ^ 64) : fromChars (sixDigits n).toList = some n := by
  have hvalue : Nat.ofDigitChars 10 (sixDigits n).toList 0 = n := by
    rw [sixDigits, String.toList_ofList, Nat.ofDigitChars_append, Nat.ofDigitChars_replicate_zero,
      Nat.mul_zero, Nat.ofDigitChars_ten_toDigits]
  unfold fromChars
  rw [hvalue, if_pos ⟨sixDigits_ne_nil n, List.all_eq_true.mpr (sixDigits_isDigit n), h⟩]

theorem suffixType_dot {suffix : List Char} {type : FileType} (h : suffixType suffix = some type) :
    ∃ rest, suffix = '.' :: rest := by
  unfold suffixType at h
  split_ifs at h with h1 h2 h3
  · exact ⟨_, h1⟩
  · obtain h2 | h2 := h2
    · exact ⟨_, h2⟩
    · exact ⟨_, h2⟩
  · exact ⟨_, h3⟩

theorem not_isDigit_of_head {t : String} {c : Char} (h : t.toList.head? = some c)
    (hc : c.isDigit = false) {cs : List Char} (hcs : fromChars cs ≠ none) (rest : List Char) :
    t.toList ≠ cs ++ rest := by
  unfold fromChars at hcs
  split_ifs at hcs with hdigits
  · obtain ⟨d, ds, rfl⟩ := exists_cons_of_ne_nil hdigits.1
    intro heq
    rw [heq, cons_append, head?_cons, Option.some.injEq] at h
    have hd := List.all_eq_true.mp hdigits.2.1 d mem_cons_self
    rw [h, hc] at hd
    cases hd
  · exact absurd rfl hcs

theorem parseFileName_digits {name : String} {cs suffix : List Char} {n : Nat} {type : FileType}
    (hname : name.toList = cs ++ suffix) (hcs : fromChars cs = some n)
    (hsuffix : suffixType suffix = some type) : parseFileName name = some ⟨n, type⟩ := by
  obtain ⟨rest, rfl⟩ := suffixType_dot hsuffix
  have hsome : fromChars cs ≠ none := by rw [hcs]; exact some_ne_none n
  have hdigits : cs.all Char.isDigit = true := by
    unfold fromChars at hcs
    split_ifs at hcs with h
    exact h.2.1
  -- the first character is a digit, which no other name starts with
  have hne : ∀ {t : String} {c : Char}, t.toList.head? = some c → c.isDigit = false → name ≠ t := by
    intro t c ht hc heq
    exact not_isDigit_of_head ht hc hsome _ (heq ▸ hname)
  have hpre : ¬"MANIFEST-".toList.isPrefixOf name.toList = true := by
    intro hpre
    obtain ⟨more, hmore⟩ := isPrefixOf_iff_prefix.mp hpre
    have hhead : name.toList.head? = some 'M' := by rw [← hmore]; rfl
    exact not_isDigit_of_head hhead rfl hsome _ hname
  have hnodot : ∀ x ∈ cs, decide (x ≠ '.') = true := by
    intro x hx
    have hdigit := List.all_eq_true.mp hdigits x hx
    rw [decide_eq_true_eq]
    rintro rfl
    cases hdigit
  unfold parseFileName
  rw [if_neg (hne (t := "CURRENT") rfl rfl), if_neg (hne (t := "LOCK") rfl rfl),
    if_neg (not_or.mpr ⟨hne (t := "LOG") rfl rfl, hne (t := "LOG.old") rfl rfl⟩), if_neg hpre,
    hname, if_pos (mem_append_right _ mem_cons_self),
    takeWhile_append_of_pos hnodot, dropWhile_append_of_pos hnodot]
  have htake : ('.' :: rest).takeWhile (fun x => decide (x ≠ '.')) = [] := rfl
  have hdrop : ('.' :: rest).dropWhile (fun x => decide (x ≠ '.')) = '.' :: rest := rfl
  rw [htake, hdrop, append_nil, hcs, bind_some, hsuffix, map_some]

theorem parseFileName_numbered {n : Nat} (h : n < 2 ^ 64) {suffix : String} {type : FileType}
    (hsuffix : suffixType suffix.toList = some type) :
    parseFileName (sixDigits n ++ suffix) = some ⟨n, type⟩ :=
  parseFileName_digits (String.toList_append ..) (fromChars_sixDigits h) hsuffix

theorem parseFileName_manifest {name : String} {cs : List Char} {n : Nat}
    (hname : name.toList = "MANIFEST-".toList ++ cs) (hcs : fromChars cs = some n) :
    parseFileName name = some ⟨n, .descriptorFile⟩ := by
  have hne : ∀ {t : String}, "MANIFEST-".toList.isPrefixOf t.toList = false → name ≠ t := by
    rintro t ht rfl
    rw [hname, isPrefixOf_iff_prefix.mpr (prefix_append _ _)] at ht
    cases ht
  unfold parseFileName
  rw [if_neg (hne (t := "CURRENT") rfl), if_neg (hne (t := "LOCK") rfl),
    if_neg (not_or.mpr ⟨hne (t := "LOG") rfl, hne (t := "LOG.old") rfl⟩), hname,
    if_pos ( isPrefixOf_iff_prefix.mpr (prefix_append _ _)),
    drop_left' (show "MANIFEST-".toList.length = 9 from rfl), hcs, map_some]

/-! ## All names -/

def suffixes : List (String × FileType) :=
  [(".log", .logFile), (".sst", .tableFile), (".ldb", .tableFile), (".dbtmp", .tempFile)]

/-- A name of a file of the database, and what the file is. -/
inductive IsNameOf : String → ParsedFile → Prop
  | current : IsNameOf "CURRENT" ⟨0, .currentFile⟩
  | lock : IsNameOf "LOCK" ⟨0, .dbLockFile⟩
  | infoLog : IsNameOf "LOG" ⟨0, .infoLogFile⟩
  | oldInfoLog : IsNameOf "LOG.old" ⟨0, .infoLogFile⟩
  | manifest {d : List Char} (hne : d ≠ []) (hdigits : ∀ c ∈ d, c.isDigit = true)
      (hlt : Nat.ofDigitChars 10 d 0 < 2 ^ 64) :
      IsNameOf ("MANIFEST-" ++ String.ofList d) ⟨Nat.ofDigitChars 10 d 0, .descriptorFile⟩
  | numbered {d : List Char} {s : String × FileType} (hne : d ≠ [])
      (hdigits : ∀ c ∈ d, c.isDigit = true) (hlt : Nat.ofDigitChars 10 d 0 < 2 ^ 64)
      (hs : s ∈ suffixes) : IsNameOf (String.ofList d ++ s.1) ⟨Nat.ofDigitChars 10 d 0, s.2⟩

theorem fromChars_eq_some {cs : List Char} {n : Nat} : fromChars cs = some n ↔
    cs ≠ [] ∧ (∀ c ∈ cs, c.isDigit = true) ∧ Nat.ofDigitChars 10 cs 0 < 2 ^ 64 ∧
      Nat.ofDigitChars 10 cs 0 = n := by
  simp only [fromChars, ite_none_right_eq_some, Option.some.injEq, List.all_eq_true, and_assoc]

theorem suffixType_eq_some {cs : List Char} {type : FileType} :
    suffixType cs = some type ↔ ∃ s ∈ suffixes, cs = s.1.toList ∧ type = s.2 := by
  constructor
  · intro h
    unfold suffixType at h
    split_ifs at h with hlog htable htmp
    · exact ⟨(".log", .logFile), by decide, hlog, (Option.some.inj h).symm⟩
    · obtain hsst | hldb := htable
      · exact ⟨(".sst", .tableFile), by decide, hsst, (Option.some.inj h).symm⟩
      · exact ⟨(".ldb", .tableFile), by decide, hldb, (Option.some.inj h).symm⟩
    · exact ⟨(".dbtmp", .tempFile), by decide, htmp, (Option.some.inj h).symm⟩
  · rintro ⟨s, hs, rfl, rfl⟩
    have hall : ∀ s ∈ suffixes, suffixType s.1.toList = some s.2 := by decide
    exact hall s hs

theorem toList_manifest (d : List Char) :
    ("MANIFEST-" ++ String.ofList d).toList = "MANIFEST-".toList ++ d :=
  (String.toList_append ..).trans (congrArg ("MANIFEST-".toList ++ ·) String.toList_ofList)

theorem parseFileName_iff {name : String} {p : ParsedFile} :
    parseFileName name = some p ↔ IsNameOf name p := by
  constructor
  · intro h
    unfold parseFileName at h
    split_ifs at h with hcurrent hlock hlog hmanifest hdot
    · rw [hcurrent, ← Option.some.inj h]
      exact .current
    · rw [hlock, ← Option.some.inj h]
      exact .lock
    · rw [← Option.some.inj h]
      obtain hlog | hlog := hlog
      · exact hlog ▸ .infoLog
      · exact hlog ▸ .oldInfoLog
    · obtain ⟨n, hn, rfl⟩ := map_eq_some_iff.mp h
      obtain ⟨hne, hdigits, hlt, rfl⟩ := fromChars_eq_some.mp hn
      obtain ⟨d, hd⟩ := isPrefixOf_iff_prefix.mp hmanifest
      have hdrop : name.toList.drop 9 = d := by
        rw [← hd]
        exact drop_left' (show "MANIFEST-".toList.length = 9 from rfl)
      have hname : name = "MANIFEST-" ++ String.ofList (name.toList.drop 9) := by
        rw [← String.toList_inj, toList_manifest, hdrop, hd]
      have := IsNameOf.manifest hne hdigits hlt
      rwa [← hname] at this
    · obtain ⟨n, hn, hp⟩ := bind_eq_some_iff.mp h
      obtain ⟨type, htype, rfl⟩ := map_eq_some_iff.mp hp
      obtain ⟨hne, hdigits, hlt, rfl⟩ := fromChars_eq_some.mp hn
      obtain ⟨s, hs, hsuffix, rfl⟩ := suffixType_eq_some.mp htype
      have hname : name = String.ofList (name.toList.takeWhile (· ≠ '.')) ++ s.1 := by
        rw [← String.toList_inj, String.toList_append, String.toList_ofList, ← hsuffix,
          takeWhile_append_dropWhile]
      have := IsNameOf.numbered hne hdigits hlt hs
      rwa [← hname] at this
  · intro h
    cases h with
    | current => decide +kernel
    | lock => decide +kernel
    | infoLog => decide +kernel
    | oldInfoLog => decide +kernel
    | manifest hne hdigits hlt =>
      exact parseFileName_manifest (toList_manifest _)
        (fromChars_eq_some.mpr ⟨hne, hdigits, hlt, rfl⟩)
    | numbered hne hdigits hlt hs =>
      refine parseFileName_digits ?_ (fromChars_eq_some.mpr ⟨hne, hdigits, hlt, rfl⟩)
        (suffixType_eq_some.mpr ⟨_, hs, rfl, rfl⟩)
      rw [String.toList_append, String.toList_ofList]

def logFileName (dbname : String) (number : Nat) : String := makeFileName dbname number ".log"

def tableFileName (dbname : String) (number : Nat) : String := makeFileName dbname number ".ldb"

def sstTableFileName (dbname : String) (number : Nat) : String := makeFileName dbname number ".sst"

def lastComponent (path : String) : String :=
  String.ofList (path.toList.reverse.takeWhile (· ≠ '/')).reverse

theorem lastComponent_append (dbname : String) {name : String} (h : '/' ∉ name.toList) :
    lastComponent (dbname ++ "/" ++ name) = name := by
  have hname : ∀ c ∈ name.toList.reverse, decide (c ≠ '/') = true := by
    intro c hc
    rw [decide_eq_true_eq]
    rintro rfl
    exact h (mem_reverse.mp hc)
  rw [← String.toList_inj, lastComponent, String.toList_ofList, String.toList_append,
    String.toList_append, reverse_append, reverse_append,
    takeWhile_append_of_pos hname]
  show (name.toList.reverse ++ []).reverse = name.toList
  rw [append_nil, reverse_reverse]

theorem slash_notMem_sixDigits (n : Nat) : '/' ∉ (sixDigits n).toList :=
  fun h => Bool.false_ne_true (sixDigits_isDigit n _ h)

theorem parseFileName_makeFileName (dbname : String) {n : Nat} (h : n < 2 ^ 64) {suffix : String}
    {type : FileType} (hsuffix : suffixType suffix.toList = some type)
    (hslash : '/' ∉ suffix.toList) :
    parseFileName (lastComponent (makeFileName dbname n suffix)) = some ⟨n, type⟩ := by
  rw [makeFileName, String.append_assoc, lastComponent_append, parseFileName_numbered h hsuffix]
  rw [String.toList_append, mem_append, not_or]
  exact ⟨slash_notMem_sixDigits n, hslash⟩

/-- **File names are unambiguous**: what the builders make is parsed back, and the names accepted
    are those of `IsNameOf`. -/
theorem file_names :
    (∀ (dbname : String) (n : Nat), n < 2 ^ 64 →
      parseFileName (lastComponent (logFileName dbname n)) = some ⟨n, .logFile⟩ ∧
      parseFileName (lastComponent (tableFileName dbname n)) = some ⟨n, .tableFile⟩ ∧
      parseFileName (lastComponent (sstTableFileName dbname n)) = some ⟨n, .tableFile⟩ ∧
      parseFileName (lastComponent (tempFileName dbname n)) = some ⟨n, .tempFile⟩ ∧
      parseFileName (lastComponent (descriptorFileName dbname n)) = some ⟨n, .descriptorFile⟩) ∧
    (∀ (name : String) (p : ParsedFile), parseFileName name = some p ↔ IsNameOf name p) ∧
    ∀ name : String, parseFileName name = none ↔ ¬∃ p, IsNameOf name p := by
  refine ⟨fun dbname n h => ⟨parseFileName_makeFileName dbname h rfl (by decide),
    parseFileName_makeFileName dbname h rfl (by decide),
    parseFileName_makeFileName dbname h rfl (by decide),
    parseFileName_makeFileName dbname h rfl (by decide), ?_⟩, fun _ _ => parseFileName_iff, ?_⟩
  · have hpath : descriptorFileName dbname n = dbname ++ "/" ++ ("MANIFEST-" ++ sixDigits n) := by
      rw [descriptorFileName, ← String.toList_inj]
      simp only [String.toList_append, append_assoc]
      rfl
    rw [hpath, lastComponent_append,
      parseFileName_manifest (String.toList_append ..) (fromChars_sixDigits h)]
    rw [String.toList_append, mem_append, not_or]
    exact ⟨by decide, slash_notMem_sixDigits n⟩
  · intro name
    rw [eq_none_iff_forall_ne_some, not_exists]
    exact forall_congr' fun p => not_congr parseFileName_iff

end LevelDB
