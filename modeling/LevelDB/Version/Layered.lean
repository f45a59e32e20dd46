/-
  The invariant of versions, and the edits that keep it.

  `Version.Layered` collects what lookups and compactions rely on. It speaks of members only, apart
  from `canonical`; with that, members determine the version, and the levels are sorted
  (`Layered.levelsSorted`).
-/
import LevelDB.Version.Shape

namespace LevelDB

open List Option Function SortedList

variable {K V : Type} [LinearOrder K]

/-! ## Edits that add files -/

namespace Version

variable {v : Version K} {edit edit' : VersionEdit K}

theorem applyEdit_congr (hnew : edit.newFiles = edit'.newFiles)
    (hdel : edit.deletedFiles = edit'.deletedFiles) : v.applyEdit edit = v.applyEdit edit' := by
  unfold applyEdit Builder.apply VersionEdit.deletedAt VersionEdit.newFilesAt
  rw [hnew, hdel]

omit [LinearOrder K] in
theorem fresh_of_numbers (hnodup : (edit.newFiles.map fun p => p.2.number).Nodup)
    (hnum : ∀ p ∈ edit.newFiles, ∀ l, ∀ g ∈ v.files l, g.number < p.2.number) : v.Fresh edit :=
  fresh_of_ne hnodup fun p hp l g hg => (hnum p hp l g hg).ne

theorem mem_applyEdit_addFile {level : Nat} {f : FileMetaData K} (hlevel : level < kNumLevels)
    (hfresh : v.Fresh (edit.addFile level f)) (l : Nat) (g : FileMetaData K) :
    g ∈ (v.applyEdit (edit.addFile level f)).files l ↔
      g ∈ (v.applyEdit edit).files l ∨ l = level ∧ g = f := by
  have hat : ∀ x, x ∈ (edit.addFile level f).newFilesAt l ↔
      x ∈ edit.newFilesAt l ∨ l = level ∧ x = f := by
    intro x
    rw [VersionEdit.mem_newFilesAt, VersionEdit.mem_newFilesAt]
    unfold VersionEdit.addFile
    rw [mem_append, mem_singleton, Prod.mk.injEq]
  by_cases hl : l < kNumLevels
  · have hsmall : FreshAt (v.files l) (edit.newFilesAt l) := by
      refine ⟨(hfresh l).1.sublist ?_, fun x hx => (hfresh l).2 x ((hat x).mpr (Or.inl hx))⟩
      unfold VersionEdit.newFilesAt VersionEdit.addFile
      exact (((sublist_append_left _ _).filter _).map _).map _
    rw [mem_applyEdit (hfresh l) hl, mem_applyEdit hsmall hl, hat]
    have hdel : (edit.addFile level f).deletedAt l = edit.deletedAt l := rfl
    rw [hdel]
    tauto
  · constructor
    · intro hg
      exact absurd (level_lt hg) hl
    · intro h
      obtain hg | ⟨rfl, -⟩ := h
      · exact absurd (level_lt hg) hl
      · exact absurd hlevel hl

theorem mem_applyEdit_of_nil (hnew : edit.newFiles = []) (hdel : edit.deletedFiles = []) (l : Nat)
    (g : FileMetaData K) : g ∈ (v.applyEdit edit).files l ↔ g ∈ v.files l := by
  by_cases hl : l < kNumLevels
  · grind [VersionEdit.newFilesAt, FreshAt, nodup_nil, mem_applyEdit, VersionEdit.deletedAt]
  · exact ⟨fun hg => absurd (level_lt hg) hl, fun hg => absurd (level_lt hg) hl⟩

theorem eq_of_canonical {v' : Version K} (hv : v.Canonical) (hv' : v'.Canonical)
    (hmem : ∀ l g, g ∈ v.files l ↔ g ∈ v'.files l) : v = v' :=
  Version.ext (funext fun l => (hv l).ext (hv' l) (hmem l))

theorem applyEdit_eq_self (hv : v.Canonical) (hnew : edit.newFiles = [])
    (hdel : edit.deletedFiles = []) : v.applyEdit edit = v := by
  grind [fresh_of_numbers, nodup_nil, eq_of_canonical, applyEdit_canonical, mem_applyEdit_of_nil]

/-! ## The invariant -/

/-- The invariant of a version over its tables. -/
structure Layered (v : Version K) (store : TableStore K V) : Prop where
  intact : v.Intact store
  apart : ∀ level, 1 ≤ level → ∀ f ∈ v.files level, ∀ g ∈ v.files level, f ≠ g →
    f.largest < g.smallest ∨ g.largest < f.smallest
  order : v.LevelOrder store
  numbers : ∀ i j, ∀ f ∈ v.files i, ∀ g ∈ v.files j, f.number = g.number → i = j ∧ f = g
  canonical : v.Canonical

theorem empty_layered (store : TableStore K V) : (empty : Version K).Layered store where
  intact := fun _ _ hf => absurd hf not_mem_nil
  apart := fun _ _ _ hf => absurd hf not_mem_nil
  order := ⟨fun _ _ _ _ hf => absurd hf not_mem_nil, fun _ hf => absurd hf not_mem_nil⟩
  numbers := fun _ _ _ hf => absurd hf not_mem_nil
  canonical := fun _ => List.Pairwise.nil

namespace Layered

variable {v v' : Version K} {store store' : TableStore K V}

section

variable (h : v.Layered store)
include h

theorem ranged : v.Ranged :=
  fun level f hf => (h.intact level f hf).smallest_le_largest

theorem shape : v.Shape := ⟨h.canonical, h.ranged, h.apart, h.numbers⟩

theorem levelsSorted : v.LevelsSorted := h.shape.levelsSorted

theorem add {level : Nat} {f : FileMetaData K} {t : Table K V}
    (hmem : ∀ l g, g ∈ v'.files l ↔ g ∈ v.files l ∨ l = level ∧ g = f)
    (hcanon : v'.Canonical) (hnum : ∀ l, ∀ g ∈ v.files l, g.number < f.number)
    (hdesc : Describes f t)
    (hnewer : ∀ x ∈ t.entries, ∀ y ∈ v.entries store, x.userKey = y.userKey →
      y.sequence < x.sequence)
    (hfree : 0 < level → ∀ l ≤ level, ∀ g ∈ v.files l,
      g.largest.userKey < f.smallest.userKey ∨ f.largest.userKey < g.smallest.userKey) :
    v'.Layered (Function.update store f.number t) := by
  have hold : ∀ l, ∀ g ∈ v.files l, Function.update store f.number t g.number = store g.number :=
    fun l g hg => update_of_ne (hnum l g hg).ne _ _
  have hnew : Function.update store f.number t f.number = t := update_self _ _ _
  have hshape : v'.Shape := by
    refine h.shape.extend (fun l g => l = level ∧ g = f) (fun l g hg => (hmem l g).mp hg) hcanon ?_
      ?_ ?_
    · intro l x hx
      rw [hx.2]
      exact hdesc.smallest_le_largest
    · intro l hl x hx g hg hne
      obtain ⟨rfl, rfl⟩ := hx
      obtain hg | ⟨-, rfl⟩ := (hmem l g).mp hg
      · obtain hlt | hlt := hfree hl l (Nat.le_refl _) g hg
        · exact Or.inr (InternalKey.lt_of_userKey_lt hlt)
        · exact Or.inl (InternalKey.lt_of_userKey_lt hlt)
      · exact absurd rfl hne
    · grind
  refine ⟨?_, hshape.apart, ⟨?_, ?_⟩, hshape.numbers, hcanon⟩
  · intro l g hg
    obtain hg | ⟨-, rfl⟩ := (hmem l g).mp hg
    · rw [hold l g hg]; exact h.intact l g hg
    · rw [hnew]; exact hdesc
  · intro i j hij g hg g' hg'
    obtain hg | ⟨rfl, rfl⟩ := (hmem i g).mp hg
    · obtain hg' | ⟨rfl, rfl⟩ := (hmem j g').mp hg'
      · rw [hold i g hg, hold j g' hg']
        exact h.order.levels i j hij g hg g' hg'
      · -- the new file is deeper: it shares no user key with files before it
        rw [hold i g hg, hnew]
        intro x hx y hy hu
        have hxb := (h.intact i g hg).userKey_bounds hx
        have hyb := hdesc.userKey_bounds hy
        rw [hu] at hxb
        obtain hlt | hlt := hfree (Nat.zero_lt_of_lt hij) i hij.le g hg
        · exact absurd (hyb.1.trans hxb.2) (not_le.mpr hlt)
        · exact absurd (hxb.1.trans hyb.2) (not_le.mpr hlt)
    · obtain hg' | ⟨rfl, -⟩ := (hmem j g').mp hg'
      · rw [hnew, hold j g' hg']
        intro x hx y hy hu
        exact hnewer x hx y ⟨j, g', hg', hy⟩ hu
      · exact absurd hij (lt_irrefl _)
  · intro g hg g' hg' hlt
    obtain hg | ⟨-, rfl⟩ := (hmem 0 g).mp hg
    · obtain hg' | ⟨-, rfl⟩ := (hmem 0 g').mp hg'
      · rw [hold 0 g hg, hold 0 g' hg']
        exact h.order.levelZero g hg g' hg' hlt
      · exact absurd hlt (not_lt.mpr (hnum 0 g hg).le)
    · obtain hg' | ⟨-, rfl⟩ := (hmem 0 g').mp hg'
      · rw [hnew, hold 0 g' hg']
        intro x hx y hy hu
        exact hnewer x hx y ⟨0, g', hg', hy⟩ hu
      · exact absurd hlt (lt_irrefl _)

end

theorem mem_entries_add {level : Nat} {f : FileMetaData K} {t : Table K V}
    (hmem : ∀ l g, g ∈ v'.files l ↔ g ∈ v.files l ∨ l = level ∧ g = f)
    (hnum : ∀ l, ∀ g ∈ v.files l, g.number < f.number) {e : Entry K V} :
    e ∈ v'.entries (Function.update store f.number t) ↔ e ∈ v.entries store ∨ e ∈ t.entries := by
  constructor
  · intro ⟨l, g, hg, he⟩
    obtain hg | ⟨-, rfl⟩ := (hmem l g).mp hg
    · rw [update_of_ne (hnum l g hg).ne] at he
      exact Or.inl ⟨l, g, hg, he⟩
    · rw [update_self] at he
      exact Or.inr he
  · intro he
    obtain ⟨l, g, hg, he⟩ | he := he
    · refine ⟨l, g, (hmem l g).mpr (Or.inl hg), ?_⟩
      rw [update_of_ne (hnum l g hg).ne]
      exact he
    · refine ⟨level, f, (hmem level f).mpr (Or.inr ⟨rfl, rfl⟩), ?_⟩
      rw [update_self]
      exact he

def OneEntryPerSequence (S : Set (Entry K V)) : Prop :=
  ∀ a ∈ S, ∀ b ∈ S, a.userKey = b.userKey → a.sequence = b.sequence → a.tag = b.tag

variable {c : Compaction K} {out : Option (FileMetaData K)}

/-- The inputs of a compaction replaced by at most one file made of their entries. -/
structure Replaces (v v' : Version K) (store store' : TableStore K V) (c : Compaction K)
    (out : Option (FileMetaData K)) : Prop where
  mem : ∀ l g, g ∈ v'.files l ↔
    (l = c.level + 1 ∧ g ∈ out) ∨ (g ∈ v.files l ∧ ¬ c.Removes l g)
  canonical : v'.Canonical
  stays : ∀ l, ∀ g ∈ v.files l, ¬ c.Removes l g →
    store' g.number = store g.number ∧ ∀ f ∈ out, g.number ≠ f.number
  describes : ∀ f ∈ out, Describes f (store' f.number)
  sub : ∀ f ∈ out, ∀ e ∈ (store' f.number).entries,
    ∃ g ∈ c.inputs0 ++ c.inputs1, e ∈ (store g.number).entries

namespace Replaces

section

variable (hrep : Replaces v v' store store' c out) (h : v.Layered store) (hc : Closed v c)
include hrep h hc

theorem apart {f g : FileMetaData K} (hf : f ∈ out) (hg : g ∈ v.files (c.level + 1))
    (hstays : ¬ c.Removes (c.level + 1) g) : f.largest < g.smallest ∨ g.largest < f.smallest := by
  have hin : ∀ x ∈ c.inputs0 ++ c.inputs1, Describes x (store x.number) := by
    intro x hx
    obtain hx | hx := mem_append.mp hx
    · exact h.intact _ x (hc.sub0 x hx)
    · exact h.intact _ x (hc.sub1 x hx)
  obtain hlt | hlt := hc.hull g hg fun hmem => hstays (Or.inr ⟨rfl, hmem⟩)
  · right
    obtain ⟨e, he, hek⟩ := (hrep.describes f hf).smallest_mem
    obtain ⟨x, hx, hex⟩ := hrep.sub f hf e he
    rw [← hek]
    exact (hlt x hx).trans_le ((hin x hx).bounds e hex).1
  · left
    obtain ⟨e, he, hek⟩ := (hrep.describes f hf).largest_mem
    obtain ⟨x, hx, hex⟩ := hrep.sub f hf e he
    rw [← hek]
    exact ((hin x hx).bounds e hex).2.trans_lt (hlt x hx)

theorem newer_deeper {f g : FileMetaData K} (hf : f ∈ out) {j : Nat} (hj : c.level + 1 < j)
    (hg : g ∈ v.files j) : NewerTable (store' f.number) (store g.number) := by
  intro x hx y hy hu
  obtain ⟨i, hi, hxi⟩ := hrep.sub f hf x hx
  obtain hi | hi := mem_append.mp hi
  · exact h.order.levels c.level j (by omega) i (hc.sub0 i hi) g hg x hxi y hy hu
  · exact h.order.levels (c.level + 1) j hj i (hc.sub1 i hi) g hg x hxi y hy hu

theorem newer_before (huniq : OneEntryPerSequence (v.entries store)) {f g : FileMetaData K}
    (hf : f ∈ out) {i : Nat} (hi : i ≤ c.level) (hg : g ∈ v.files i)
    (hstays : ¬ c.Removes i g) : NewerTable (store g.number) (store' f.number) := by
  intro x hx y hy hu
  obtain ⟨k, hk, hyk⟩ := hrep.sub f hf y hy
  have htag := hc.tag_lt_of_stays h.intact h.order (by omega) hk hg hstays hyk hx hu
  have hy' : y ∈ v.entries store := by
    obtain hk | hk := mem_append.mp hk
    · exact ⟨_, k, hc.sub0 k hk, hyk⟩
    · exact ⟨_, k, hc.sub1 k hk, hyk⟩
  refine lt_of_le_of_ne (Entry.sequence_le_of_tag_le htag.le) ?_
  intro hseq
  exact htag.ne (huniq y hy' x ⟨i, g, hg, hx⟩ hu.symm hseq)

end

end Replaces

theorem Replaces.shape (hrep : Replaces v v' store store' c out) (h : v.Layered store)
    (hc : Closed v c) : v'.Shape := by
  refine h.shape.extend (fun l g => l = c.level + 1 ∧ g ∈ out) ?_ hrep.canonical ?_ ?_ ?_
  · intro l g hg
    exact ((hrep.mem l g).mp hg).symm.imp_left And.left
  · intro l f hf
    exact (hrep.describes f hf.2).smallest_le_largest
  · intro l _ f hf g hg hne
    obtain ⟨rfl, hf⟩ := hf
    obtain ⟨-, hg⟩ | ⟨hg, hs⟩ := (hrep.mem _ g).mp hg
    · exact absurd (mem_unique hf hg) hne
    · exact hrep.apart h hc hf hg hs
  · intro i f hf j g hg heq
    obtain ⟨rfl, hf⟩ := hf
    obtain ⟨hj, hg⟩ | ⟨hg, hs⟩ := (hrep.mem j g).mp hg
    · exact ⟨hj.symm, mem_unique hf hg⟩
    · exact absurd heq.symm ((hrep.stays j g hg hs).2 f hf)

theorem replace (h : v.Layered store) (hc : Closed v c)
    (huniq : OneEntryPerSequence (v.entries store)) (hrep : Replaces v v' store store' c out) :
    v'.Layered store' := by
  have hshape := hrep.shape h hc
  refine ⟨?_, hshape.apart, ⟨?_, ?_⟩, hshape.numbers, hrep.canonical⟩
  · intro l g hg
    obtain ⟨-, hg⟩ | ⟨hg, hs⟩ := (hrep.mem l g).mp hg
    · exact hrep.describes g hg
    · rw [(hrep.stays l g hg hs).1]; exact h.intact l g hg
  · intro i j hij g hg g' hg'
    obtain ⟨rfl, ho⟩ | ⟨hg, hs⟩ := (hrep.mem i g).mp hg
    · obtain ⟨rfl, -⟩ | ⟨hg', hs'⟩ := (hrep.mem j g').mp hg'
      · exact absurd hij (lt_irrefl _)
      · rw [(hrep.stays j g' hg' hs').1]
        exact hrep.newer_deeper h hc ho hij hg'
    · rw [(hrep.stays i g hg hs).1]
      obtain ⟨rfl, ho'⟩ | ⟨hg', hs'⟩ := (hrep.mem j g').mp hg'
      · exact hrep.newer_before h hc huniq ho' (by omega) hg hs
      · rw [(hrep.stays j g' hg' hs').1]
        exact h.order.levels i j hij g hg g' hg'
  · intro g hg g' hg' hlt
    obtain ⟨hl, -⟩ | ⟨hg, hs⟩ := (hrep.mem 0 g).mp hg
    · exact absurd hl (Nat.succ_ne_zero _).symm
    · obtain ⟨hl, -⟩ | ⟨hg', hs'⟩ := (hrep.mem 0 g').mp hg'
      · exact absurd hl (Nat.succ_ne_zero _).symm
      · rw [(hrep.stays 0 g hg hs).1, (hrep.stays 0 g' hg' hs').1]
        exact h.order.levelZero g hg g' hg' hlt

theorem Replaces.entries_sub (hrep : Replaces v v' store store' c out) (hc : Closed v c) :
    v'.entries store' ⊆ v.entries store := by
  intro e ⟨l, g, hg, he⟩
  obtain ⟨-, hg⟩ | ⟨hg, hs⟩ := (hrep.mem l g).mp hg
  · obtain ⟨i, hi, hei⟩ := hrep.sub g hg e he
    obtain hi | hi := mem_append.mp hi
    · exact ⟨_, i, hc.sub0 i hi, hei⟩
    · exact ⟨_, i, hc.sub1 i hi, hei⟩
  · rw [(hrep.stays l g hg hs).1] at he
    exact ⟨l, g, hg, he⟩

/-! ## The two uses -/

theorem makeInputIterator_strict (h : v.Layered store) (hc : Closed v c)
    (faults : Nat → TableFault) : Strict Entry.key (makeInputIterator store faults c).entries := by
  have hsub : ∀ {f : FileMetaData K} {e : Entry K V},
      e ∈ ((store f.number).scan (faults f.number)).entries → e ∈ (store f.number).entries :=
    fun he => ((store _).scan_sublist _).subset he
  have hne : ∀ {i j : Nat} {f g : FileMetaData K}, f ∈ v.files i → g ∈ v.files j →
      (i ≠ j ∨ f ≠ g) → ∀ a ∈ ((store f.number).scan (faults f.number)).entries,
      ∀ b ∈ ((store g.number).scan (faults g.number)).entries, a.key ≠ b.key := by
    intro i j f g hf hg hfg a ha b hb
    refine key_ne_of_files h.intact h.levelsSorted h.order hf hg ?_ (hsub ha) (hsub hb)
    by_contra hcon
    obtain ⟨hij, hn⟩ := not_or.mp hcon
    obtain ⟨-, heq⟩ := h.numbers i j f hf g hg (not_not.mp hn)
    exact hfg.elim hij fun hne => hne heq
  have hkeys : (makeInputIterator store faults c).entries.Pairwise fun a b => a.key ≠ b.key := by
    refine (List.Perm.pairwise_iff (fun hab => hab.symm)
      (makeInputIterator_perm h.intact hc faults)).mpr ?_
    rw [pairwise_flatMap]
    refine ⟨fun f _ => ?_, pairwise_append.mpr ⟨?_, ?_, ?_⟩⟩
    · exact ((store f.number).sorted.sublist ((store f.number).scan_sublist _)).imp fun hlt => hlt.ne
    · refine (hc.nodup0 (h.canonical c.level).nodup).imp_of_mem ?_
      exact fun hf hg hfg => hne (hc.sub0 _ hf) (hc.sub0 _ hg) (Or.inr hfg)
    · refine hc.sorted1.imp_of_mem ?_
      intro f g hf hg hfg
      refine hne (hc.sub1 _ hf) (hc.sub1 _ hg) (Or.inr ?_)
      intro heq
      subst heq
      exact absurd (h.ranged _ f (hc.sub1 f hf)) (not_le.mpr hfg)
    · exact fun f hf g hg => hne (hc.sub0 _ hf) (hc.sub1 _ hg) (Or.inl (Nat.succ_ne_self _).symm)
  exact ((makeInputIterator_sorted h.intact hc faults).and hkeys).imp fun hab =>
    lt_of_le_of_ne hab.1 hab.2

theorem doCompactionWork_strict [Inhabited K] (h : v.Layered store) (hc : Closed v c)
    {snap number : Nat} {env : CompactionEnv} {r : Option (FileMetaData K × List (Entry K V))}
    (hwork : doCompactionWork v store c snap number env = .ok r) :
    ∀ p ∈ r, Strict Entry.key p.2 := by
  intro p hp
  obtain ⟨-, hr⟩ | ⟨-, -, -, f, kept, hr, hk, -⟩ := doCompactionWork_ok hwork
  · rw [hr] at hp
    cases hp
  · rw [hr] at hp
    obtain rfl := Option.some.inj hp
    rw [show (f, kept).2 = kept from rfl, hk]
    exact (h.makeInputIterator_strict hc env.faults).sublist
      ((keptEntries_sublist _ _ _ _).trans (env.consumed_sublist _))

theorem compaction_replaces [Inhabited K] (h : v.Layered store) (hc : Closed v c)
    (hlevel : c.level + 1 < kNumLevels) {snap number : Nat} {env : CompactionEnv}
    (hnum : ∀ level, ∀ f ∈ v.files level, f.number ≠ number)
    {r : Option (FileMetaData K × List (Entry K V))}
    (hwork : doCompactionWork v store c snap number env = .ok r) (hne : ∀ p ∈ r, p.2 ≠ [])
    {t : Table K V} (ht : ∀ p ∈ r, t.entries = p.2) :
    Replaces v (v.applyEdit (compactionEdit c (r.map Prod.fst))) store
      (Function.update store number t) c (r.map Prod.fst) := by
  have hnumber := doCompactionWork_number hwork
  have hfresh : ∀ f ∈ r.map Prod.fst, ∀ level, ∀ g ∈ v.files level, g.number ≠ f.number := by
    intro f hf level g hg
    obtain ⟨p, hp, rfl⟩ := Option.mem_map.mp hf
    rw [hnumber p hp]
    exact hnum level g hg
  refine ⟨?_, applyEdit_canonical h.canonical (compactionEdit_freshAt c hfresh), ?_, ?_, ?_⟩
  · grind [kNumLevels, mem_compactionEdit_files, h.intact, level_lt]
  · intro l g hg _
    exact ⟨update_of_ne (hnum l g hg) _ _, fun f hf => hfresh f hf l g hg⟩
  · intro f hf
    obtain ⟨p, hp, rfl⟩ := Option.mem_map.mp hf
    rw [hnumber p hp, update_self]
    obtain ⟨-, hr⟩ | ⟨-, -, -, x, kept, hr, -, -, hs, hl⟩ := doCompactionWork_ok hwork
    · rw [hr] at hp; cases hp
    · rw [hr] at hp
      obtain rfl := Option.some.inj hp
      have hte : t.entries = kept := ht _ hr
      exact describes_of_ends (by rw [hte]; exact hne _ hr) (by rw [hte]; exact hs)
        (by rw [hte]; exact hl)
  · intro f hf e he
    obtain ⟨p, hp, rfl⟩ := Option.mem_map.mp hf
    rw [hnumber p hp, update_self, ht p hp] at he
    exact doCompactionWork_sub h.intact hc hwork p hp e he

end Layered

end Version

namespace Version.Layered

variable {v : Version K} {store : TableStore K V} {c : Compaction K} {f : FileMetaData K}

section

variable (h : v.Layered store) (hc : Closed v c) (hlevel : c.level + 1 < kNumLevels)
  (h0 : c.inputs0 = [f]) (h1 : c.inputs1 = [])
include h hc hlevel h0 h1

theorem move_replaces :
    Replaces v (v.applyEdit c.moveEdit) store store c (some f) := by
  have hf : f ∈ v.files c.level := hc.sub0 f (by rw [h0]; exact mem_singleton.mpr rfl)
  have hrem : ∀ l g, c.Removes l g ↔ l = c.level ∧ g = f := by
    intro l g
    unfold Compaction.Removes
    rw [h0, h1]
    simp
  refine ⟨?_, applyEdit_canonical h.canonical (moveEdit_freshAt h.shape hc h0), ?_, ?_, ?_⟩
  · intro l g
    rw [mem_moveEdit_files h.shape hc hlevel h0 h1, mem_some_iff, @eq_comm _ f g]
  · intro l g hg hs
    refine ⟨rfl, ?_⟩
    intro x hx heq
    obtain rfl := mem_some_iff.mp hx
    exact hs ((hrem l g).mpr (h.numbers l _ g hg f hf heq))
  · intro x hx
    obtain rfl := mem_some_iff.mp hx
    exact h.intact _ f hf
  · intro x hx e he
    obtain rfl := mem_some_iff.mp hx
    exact ⟨f, by rw [h0]; simp, he⟩

theorem move_entries :
    (v.applyEdit c.moveEdit).entries store = v.entries store := by
  have hrep := move_replaces h hc hlevel h0 h1
  apply Set.Subset.antisymm (hrep.entries_sub hc)
  intro e ⟨l, g, hg, he⟩
  by_cases hr : c.Removes l g
  · refine ⟨c.level + 1, f, (hrep.mem _ _).mpr (Or.inl ⟨rfl, rfl⟩), ?_⟩
    obtain ⟨-, hg0⟩ | ⟨-, hg1⟩ := hr
    · rw [h0] at hg0
      rw [← mem_singleton.mp hg0]
      exact he
    · rw [h1] at hg1
      exact absurd hg1 not_mem_nil
  · exact ⟨l, g, (hrep.mem l g).mpr (Or.inr ⟨hg, hr⟩), he⟩

end

end Version.Layered

end LevelDB
