/-
  Tables (`table/table.cc`): data blocks, their index entries, the filter, and the point
  lookup `Table::InternalGet`.

  A `Table` is a readable table file. Its fields carry what `TableBuilder` establishes about the
  order of entries and separators and about the filter. The byte layout is not part of this module:
  a block iterator's `Seek` is `SortedList.seek`.
-/
import LevelDB.Lib.Seek
import LevelDB.DbFormat

namespace LevelDB

open List Option SortedList Multiversion

/-- A data block with its index entry: the separator key and the block's handle. -/
structure DataBlock (K V : Type) where
  separator : InternalKey K
  offset : Nat
  entries : List (Entry K V)

/-- A readable table. `filter` is `FilterBlockReader::KeyMayMatch` on user keys, `none`
    without a filter policy. -/
structure Table (K V : Type) [LinearOrder K] where
  blocks : List (DataBlock K V)
  filter : Option (Nat → K → Bool)
  sorted : Strict Entry.key (blocks.flatMap DataBlock.entries)
  wellFormed : ∀ b ∈ blocks, ∀ e ∈ b.entries, e.key.WellFormed
  le_separator : ∀ b ∈ blocks, ∀ e ∈ b.entries, e.key ≤ b.separator
  separator_lt : blocks.Pairwise fun b c => ∀ e ∈ c.entries, b.separator < e.key
  separator_user : blocks.Pairwise fun b c =>
    (∃ e ∈ b.entries, e.key = b.separator) ∨ ∀ e ∈ c.entries, b.separator.userKey < e.userKey
  filter_complete : ∀ f, filter = some f → ∀ b ∈ blocks, ∀ e ∈ b.entries,
    f b.offset e.userKey = true

namespace Table

variable {K V : Type} [LinearOrder K]

def entries (t : Table K V) : List (Entry K V) := t.blocks.flatMap DataBlock.entries

theorem entries_wellFormed (t : Table K V) : ∀ e ∈ t.entries, e.key.WellFormed := by
  intro e he
  obtain ⟨b, hb, heb⟩ := mem_flatMap.mp he
  exact t.wellFormed b hb e heb

variable {b : DataBlock K V} {t : Table K V}

theorem strict_of_mem (hb : b ∈ t.blocks) :
    Strict Entry.key b.entries :=
  (pairwise_flatMap.mp t.sorted).1 b hb

def singleBlock (es : List (Entry K V)) : List (DataBlock K V) :=
  match es.getLast? with
  | none => []
  | some e => [⟨e.key, 0, es⟩]

omit [LinearOrder K] in
theorem singleBlock_entries (es : List (Entry K V)) :
    (singleBlock es).flatMap DataBlock.entries = es := by
  unfold singleBlock
  cases h : es.getLast? with
  | none => simp [getLast?_eq_none_iff.mp h]
  | some e => simp

omit [LinearOrder K] in
theorem mem_singleBlock {es : List (Entry K V)} (h : b ∈ singleBlock es) :
    b.entries = es ∧ ∃ e, es.getLast? = some e ∧ e.key = b.separator := by
  unfold singleBlock at h
  cases hl : es.getLast? with
  | none => simp [hl] at h
  | some e =>
    simp only [hl, mem_singleton] at h
    subst h
    exact ⟨rfl, e, rfl, rfl⟩

omit [LinearOrder K] in
theorem pairwise_singleBlock (es : List (Entry K V)) (R : DataBlock K V → DataBlock K V → Prop) :
    (singleBlock es).Pairwise R := by
  unfold singleBlock
  cases es.getLast? <;> simp

theorem strict_nil : Strict Entry.key ([] : List (Entry K V)) := .nil

omit [LinearOrder K] in
theorem wellFormed_nil : ∀ e ∈ ([] : List (Entry K V)), e.key.WellFormed := forall_mem_nil _

def ofEntries (es : List (Entry K V)) (hsorted : Strict Entry.key es)
    (hwf : ∀ e ∈ es, e.key.WellFormed) : Table K V where
  blocks := singleBlock es
  filter := none
  sorted := by rw [singleBlock_entries]; exact hsorted
  wellFormed := fun b hb e he => hwf e ((mem_singleBlock hb).1 ▸ he)
  le_separator := by
    intro b hb e he
    obtain ⟨hes, z, hz, hzk⟩ := mem_singleBlock hb
    rw [hes] at he
    exact hzk ▸ hsorted.le_getLast hz e he
  separator_lt := pairwise_singleBlock es _
  separator_user := pairwise_singleBlock es _
  filter_complete := by simp

@[simp] theorem entries_ofEntries (es : List (Entry K V)) (hsorted : Strict Entry.key es)
    (hwf : ∀ e ∈ es, e.key.WellFormed) : (ofEntries es hsorted hwf).entries = es :=
  singleBlock_entries es

/-- `iiter->Seek(k)` on the index block. -/
def indexSeek (t : Table K V) (k : InternalKey K) : Option (DataBlock K V) :=
  t.blocks.find? fun b => decide (k ≤ b.separator)

/-- `Table::InternalGet`: the entry `handle_result` is called with, if any. -/
def internalGet (t : Table K V) (k : InternalKey K) : Option (Entry K V) :=
  match t.indexSeek k with
  | none => none
  | some b =>
    match t.filter with
    | some keyMayMatch =>
      if keyMayMatch b.offset k.userKey then seek Entry.key b.entries k else none
    | none => seek Entry.key b.entries k

/-! ## The point lookup -/

theorem indexSeek_split {k : InternalKey K} (h : t.indexSeek k = some b) :
    ∃ pre post, t.blocks = pre ++ b :: post ∧ k ≤ b.separator ∧
      ∀ c ∈ pre, ∀ e ∈ c.entries, e.key < k := by
  unfold indexSeek at h
  obtain ⟨hk, pre, post, hsplit, hpre⟩ := find?_eq_some_iff_append.mp h
  refine ⟨pre, post, hsplit, by simpa using hk, ?_⟩
  intro c hc e he
  have hck : ¬ k ≤ c.separator := by simpa using hpre c hc
  have hcb : c ∈ t.blocks := by rw [hsplit]; exact mem_append_left _ hc
  exact (t.le_separator c hcb e he).trans_lt (not_le.mp hck)

theorem no_entry_after {k : InternalKey K} {pre post : List (DataBlock K V)}
    (hsplit : t.blocks = pre ++ b :: post) (hk : k ≤ b.separator)
    (hnone : ∀ e ∈ b.entries, k ≤ e.key → e.userKey ≠ k.userKey) :
    ∀ c ∈ post, ∀ e ∈ c.entries, e.userKey ≠ k.userKey := by
  intro c hc e he
  have hlt : (∃ x ∈ b.entries, x.key = b.separator) ∨
      ∀ e ∈ c.entries, b.separator.userKey < e.userKey := by
    have := t.separator_user
    rw [hsplit, pairwise_append, pairwise_cons] at this
    exact this.2.1.1 c hc
  have hsep : ∀ e ∈ c.entries, b.separator < e.key := by
    have := t.separator_lt
    rw [hsplit, pairwise_append, pairwise_cons] at this
    exact this.2.1.1 c hc
  have hku : k.userKey ≤ b.separator.userKey := InternalKey.userKey_mono hk
  rcases hlt with ⟨x, hx, hxs⟩ | hlt
  · -- the separator is a key of the block, at or after the target, so of a later user key
    have hne := hnone x hx (hxs ▸ hk)
    have hxu : k.userKey < x.userKey := by
      refine lt_of_le_of_ne ?_ (Ne.symm hne)
      unfold Entry.userKey
      rw [hxs]; exact hku
    have : x.userKey ≤ e.userKey := by
      unfold Entry.userKey
      rw [hxs]; exact InternalKey.userKey_mono (hsep e he).le
    exact (hxu.trans_le this).ne'
  · exact (hku.trans_lt (hlt e he)).ne'

/-- What a lookup at `(k, s)` reports about the table: the newest visible entry of `k`, or
    that there is none. -/
def probe (t : Table K V) (k : K) (s : Nat) : Option (Entry K V) :=
  (t.internalGet (lookupKey k s)).filter fun e => decide (e.userKey = k)

def entrySet (t : Table K V) : Set (Entry K V) := {e | e ∈ t.entries}

theorem mem_or_after {k : K} {s : Nat} {pre post : List (DataBlock K V)}
    (hsplit : t.blocks = pre ++ b :: post)
    (hpre : ∀ c ∈ pre, ∀ e ∈ c.entries, e.key < lookupKey k s) {e : Entry K V} (he : e ∈ t.entrySet)
    (hek : e.userKey = k) (hes : e.sequence ≤ s) :
    e ∈ b.entries ∨ ∃ c ∈ post, e ∈ c.entries := by
  obtain ⟨c, hc, hec⟩ := mem_flatMap.mp he
  have hwf := t.wellFormed c hc e hec
  rw [hsplit] at hc
  rcases mem_append.mp hc with hc | hc
  · exact absurd (hpre c hc e hec) (not_lt.mpr (Entry.lookupKey_le_of_visible hwf hek hes))
  · rcases mem_cons.mp hc with rfl | hc
    · exact Or.inl hec
    · exact Or.inr ⟨c, hc, hec⟩

theorem probe_block {k : K} {s : Nat} (hb : t.indexSeek (lookupKey k s) = some b) :
    match (seek Entry.key b.entries (lookupKey k s)).filter (fun e => decide (e.userKey = k)) with
    | some e => Entry.NewestAt t.entrySet k s e
    | none => ∀ e ∈ t.entrySet, e.userKey = k → s < e.sequence := by
  obtain ⟨pre, post, hsplit, hsep, hpre⟩ := indexSeek_split hb
  have hbm : b ∈ t.blocks := by rw [hsplit]; simp
  have hstrict : Strict Entry.key b.entries := strict_of_mem hbm
  have hafter : ∀ x ∈ b.entries, ∀ c ∈ post, ∀ e ∈ c.entries, x.key < e.key := by
    intro x hx c hc e he
    have := t.sorted
    rw [hsplit, flatMap_append, flatMap_cons] at this
    exact (pairwise_append.mp (pairwise_append.mp this).2.1).2.2 x hx e
      (mem_flatMap.mpr ⟨c, hc, he⟩)
  cases hseek : seek Entry.key b.entries (lookupKey k s) with
  | none =>
    simp only [filter_none]
    have hlt := seek_eq_none_iff.mp hseek
    intro e he hek
    by_contra hes
    rcases mem_or_after hsplit hpre he hek (not_lt.mp hes) with h | ⟨c, hc, hec⟩
    · exact absurd (hlt e h)
        (not_lt.mpr (Entry.lookupKey_le_of_visible (t.wellFormed b hbm e h) hek (not_lt.mp hes)))
    · exact no_entry_after hsplit hsep (fun x hx hle => absurd (hlt x hx) (not_lt.mpr hle))
        c hc e hec hek
  | some x =>
    have hxm := mem_of_seek_eq_some hseek
    have hxle := le_of_seek_eq_some hseek
    have hmin := le_of_seek hstrict hseek
    have hxset : x ∈ t.entrySet := mem_flatMap.mpr ⟨b, hbm, hxm⟩
    have hle : ∀ e ∈ t.entrySet, e.userKey = k → e.sequence ≤ s → x.key ≤ e.key := by
      intro e he hek hes
      rcases mem_or_after hsplit hpre he hek hes with h | ⟨c, hc, hec⟩
      · exact hmin e h (Entry.lookupKey_le_of_visible (t.wellFormed b hbm e h) hek hes)
      · exact (hafter x hxm c hc e hec).le
    by_cases hxk : x.userKey = k
    · simp only [filter_some, hxk, decide_true, if_true]
      refine ⟨hxset, hxk, Entry.visible_of_lookupKey_le (t.wellFormed b hbm x hxm) hxk hxle, ?_⟩
      exact fun e he hek hes => Entry.tag_le_of_key_le (hek.trans hxk.symm) (hle e he hek hes)
    · -- the first key at or after the target is of a later user key, and so is the rest
      simp only [filter_some, hxk, decide_false, Bool.false_eq_true, if_false]
      have hku : k < x.userKey :=
        lt_of_le_of_ne (InternalKey.userKey_mono hxle) (fun h => hxk h.symm)
      intro e he hek
      by_contra hes
      have := InternalKey.userKey_mono (hle e he hek (not_lt.mp hes))
      exact absurd hek (hku.trans_le this).ne'

theorem internalGet_wellFormed (t : Table K V) {k : InternalKey K} {e : Entry K V}
    (h : t.internalGet k = some e) : e.key.WellFormed := by
  unfold internalGet at h
  cases hb : t.indexSeek k with
  | none => simp [hb] at h
  | some b =>
    have hbm : b ∈ t.blocks := mem_of_find?_eq_some hb
    have hseek : seek Entry.key b.entries k = some e := by
      cases hf : t.filter with
      | none => simpa [hb, hf] using h
      | some keyMayMatch =>
        simp only [hb, hf] at h
        split_ifs at h
        exact h
    exact t.wellFormed b hbm e (mem_of_seek_eq_some hseek)

theorem no_visible_of_indexSeek_none {k : K} {s : Nat} (h : t.indexSeek (lookupKey k s) = none) :
    ∀ e ∈ t.entrySet, e.userKey = k → s < e.sequence := by
  intro e he hek
  by_contra hes
  obtain ⟨b, hb, heb⟩ := mem_flatMap.mp he
  have hsep : ¬ lookupKey k s ≤ b.separator := by
    have := find?_eq_none.mp h b hb
    simpa using this
  exact hsep ((Entry.lookupKey_le_of_visible (t.wellFormed b hb e heb) hek (not_lt.mp hes)).trans
    (t.le_separator b hb e heb))

theorem no_visible_of_filter {k : K} {s : Nat} {keyMayMatch : Nat → K → Bool}
    (hb : t.indexSeek (lookupKey k s) = some b) (hf : t.filter = some keyMayMatch)
    (hno : keyMayMatch b.offset k = false) :
    ∀ e ∈ t.entrySet, e.userKey = k → s < e.sequence := by
  obtain ⟨pre, post, hsplit, hsep, hpre⟩ := indexSeek_split hb
  have hbm : b ∈ t.blocks := by rw [hsplit]; simp
  have hin : ∀ e ∈ b.entries, e.userKey ≠ k := by
    intro e he hek
    have := t.filter_complete keyMayMatch hf b hbm e he
    rw [hek, hno] at this
    cases this
  intro e he hek
  by_contra hes
  rcases mem_or_after hsplit hpre he hek (not_lt.mp hes) with hec | ⟨c, hc, hec⟩
  · exact hin e hec hek
  · exact no_entry_after hsplit hsep (fun x hx _ => hin x hx) c hc e hec hek

/-- **Point lookup in a table.** `InternalGet` at `(k, s)` reports the newest entry of `k`
    visible at `s`, or correctly that there is none. -/
theorem probe_spec (t : Table K V) (k : K) (s : Nat) :
    match t.probe k s with
    | some e => Entry.NewestAt t.entrySet k s e
    | none => ∀ e ∈ t.entrySet, e.userKey = k → s < e.sequence := by
  unfold probe internalGet
  cases hb : t.indexSeek (lookupKey k s) with
  | none => exact no_visible_of_indexSeek_none hb
  | some b =>
    cases hf : t.filter with
    | none => exact probe_block hb
    | some keyMayMatch =>
      simp only [lookupKey_userKey]
      by_cases hm : keyMayMatch b.offset k = true
      · simp only [hm, if_true]
        exact probe_block hb
      · simp only [hm, if_false, Bool.false_eq_true]
        exact no_visible_of_filter hb hf (by simpa using hm)

theorem probe_answers (t : Table K V) (k : K) (s : Nat) :
    Answers Entry.userKey Entry.tag t.entrySet k (packSequenceAndType s kValueTypeForSeek)
      (t.probe k s) := by
  have hwf : ∀ e ∈ t.entrySet, e.key.WellFormed := t.entries_wellFormed
  have hspec := t.probe_spec k s
  cases hp : t.probe k s with
  | some e =>
    rw [hp] at hspec
    exact (Entry.newestAt_iff hwf).mp hspec
  | none =>
    rw [hp] at hspec
    rintro ⟨e, he, hek, het⟩
    have := (tag_le_lookup_iff (hwf e he) s).mp het
    exact absurd (hspec e he hek) (not_lt.mpr this)

end Table
end LevelDB
