import Mathlib.Data.List.Dedup
import Cadoo.Lib.Sorted
import Cadoo.ReleaseDocs.ChangeModel

/-! Grouping the changes of a release is a partition when every title in use is listed once; a change without
a title is lost, and one under a repeated title is listed again. -/
namespace ReleaseDocs
open Bytes Utf8 Vcs

section Sections

/-- A change, and the section it asks for. -/
abbrev Change := Bytes × ChangeEntry

/-- The changes of a release: its commits, or its merged requests. -/
def changesOf (commits : List Commit) (prs : List MergedPR) (cfg : Config) : List Change :=
  if cfg.grouping.source = lit "labels" then
    prs.map fun pr => (classifyByLabels cfg.grouping.labels pr.labels,⟨pr.title,pr.author,pr.mergeSHA,pr.number⟩)
  else commits.map fun c =>
    (classifyCommit c.message,{ title := commitSubject c.message, author := c.author, sha := c.sha })

def canonicalOf (cfg : Config) : List Bytes :=
  if cfg.grouping.sections = [] then defaultSections else cfg.grouping.sections

variable (canonical : List Bytes)

/-- The section a change goes to. -/
def sectionOf (c : Change) : Bytes :=
  if c.1 ≠ [] ∧ c.1 ∈ canonical then c.1 else fallbackSection canonical

abbrev posOf : GoMap Bytes ℕ := GoMap.ofEntries canonical.zipIdx

/-- The entries of a section. -/
def entriesOf (changes : List Change) (title : Bytes) : List ChangeEntry :=
  (changes.filter fun c => sectionOf canonical c = title ∧ title ≠ []).map Prod.snd

lemma isSome_posOf (title : Bytes) : (AList.lookup title (posOf canonical)).isSome ↔ title ∈ canonical := by
  rw [GoMap.isSome_lookup_ofEntries,List.zipIdx_map_fst]

lemma isKnownSection_iff (sec : Bytes) :
    isKnownSection (posOf canonical) sec = true ↔ sec ≠ [] ∧ sec ∈ canonical := by
  rw [isKnownSection,Bool.and_eq_true,isSome_posOf]
  simp

lemma get_addEntry (c : Change) (m : GoMap Bytes (List ChangeEntry)) (title : Bytes) :
    (addEntry canonical (posOf canonical) c.1 c.2 m).get title =
      m.get title ++ if sectionOf canonical c = title ∧ title ≠ [] then [c.2] else [] := by
  have hsec : (if isKnownSection (posOf canonical) c.1 then c.1 else fallbackSection canonical) =
      sectionOf canonical c := if_congr (isKnownSection_iff canonical c.1) rfl rfl
  rw [addEntry]
  simp only [hsec]
  by_cases hblank : sectionOf canonical c = []
  · rw [if_pos hblank,hblank,if_neg (fun h => h.2 h.1.symm),List.append_nil]
  · rw [if_neg hblank,GoMap.get_insert_eq]
    by_cases ht : title = sectionOf canonical c
    · rw [if_pos ht,if_pos ⟨ht.symm,ht ▸ hblank⟩,ht]
    · rw [if_neg ht,if_neg (fun h => ht h.1.symm),List.append_nil]

/-- The entries collected under a title are those of the changes that go there, in order. -/
lemma get_foldl_addEntry (changes : List Change) (m : GoMap Bytes (List ChangeEntry)) (title : Bytes) :
    (changes.foldl (fun m c => addEntry canonical (posOf canonical) c.1 c.2 m) m).get title =
      m.get title ++ entriesOf canonical changes title := by
  induction changes generalizing m with
  | nil => exact (List.append_nil _).symm
  | cons c cs ih =>
    rw [List.foldl_cons,ih,get_addEntry,entriesOf,entriesOf,List.filter_cons,List.append_assoc]
    by_cases h : sectionOf canonical c = title ∧ title ≠ []
    · simp [h]
    · simp [h]

/-- The sections with entries, one for every time that their title is listed. -/
def sectionsOf (changes : List Change) : List ChangeSection :=
  canonical.filterMap fun title =>
    match entriesOf canonical changes title with
    | [] => none
    | es => some ⟨title,es⟩

lemma BuildGroupedModel_eq (commits : List Commit) (prs : List MergedPR) (cfg : Config) :
    BuildGroupedModel commits prs cfg =
      (sectionsOf (canonicalOf cfg) (changesOf commits prs cfg)).insertionSort fun a b =>
        ¬ canonicalPos (posOf (canonicalOf cfg)) b.title < canonicalPos (posOf (canonicalOf cfg)) a.title := by
  have hentries : (if cfg.grouping.source = lit "labels" then
      buildLabelGroupedEntries (canonicalOf cfg) (posOf (canonicalOf cfg)) cfg.grouping.labels prs
    else buildConventionalGroupedEntries (canonicalOf cfg) (posOf (canonicalOf cfg)) commits) =
      (changesOf commits prs cfg).foldl
        (fun m c => addEntry (canonicalOf cfg) (posOf (canonicalOf cfg)) c.1 c.2 m) ∅ := by
    rw [changesOf]
    split
    · rw [List.foldl_map]
      rfl
    · rw [List.foldl_map]
      rfl
  have hget : ∀ title, ((changesOf commits prs cfg).foldl
      (fun m c => addEntry (canonicalOf cfg) (posOf (canonicalOf cfg)) c.1 c.2 m) ∅).get title =
        entriesOf (canonicalOf cfg) (changesOf commits prs cfg) title := fun title =>
    (get_foldl_addEntry (canonicalOf cfg) _ ∅ title).trans (List.nil_append _)
  rw [BuildGroupedModel]
  simp only [← canonicalOf.eq_def]
  rw [hentries]
  simp only [hget]
  rfl

/-- The titles with entries. -/
def used (changes : List Change) (title : Bytes) : Bool := entriesOf canonical changes title ≠ []

variable {canonical} {changes : List Change}

lemma used_iff {title : Bytes} :
    used canonical changes title = true ↔ title ≠ [] ∧ ∃ c ∈ changes, sectionOf canonical c = title := by
  rw [used,decide_eq_true_iff,entriesOf,ne_eq,List.map_eq_nil_iff]
  constructor
  · intro h
    obtain ⟨c,hc⟩ := List.exists_mem_of_ne_nil _ h
    obtain ⟨hc,hsec⟩ := List.mem_filter.mp hc
    obtain ⟨hsec,hne⟩ := of_decide_eq_true hsec
    exact ⟨hne,c,hc,hsec⟩
  · rintro ⟨hne,c,hc,hsec⟩
    exact List.ne_nil_of_mem (List.mem_filter.mpr ⟨hc,decide_eq_true ⟨hsec,hne⟩⟩)

/-- A section of its title, with all of its entries. -/
def fullSection (canonical : List Bytes) (changes : List Change) (title : Bytes) : ChangeSection :=
  ⟨title,entriesOf canonical changes title⟩

lemma sectionsOf_eq (canonical : List Bytes) (changes : List Change) : sectionsOf canonical changes =
    (canonical.filter (used canonical changes)).map (fullSection canonical changes) := by
  have hall : ∀ titles : List Bytes, (titles.filterMap fun title =>
      match entriesOf canonical changes title with
      | [] => none
      | es => some (⟨title,es⟩ : ChangeSection)) =
        (titles.filter (used canonical changes)).map (fullSection canonical changes) := by
    intro titles
    induction titles with
    | nil => rfl
    | cons t ts ih =>
      rw [List.filterMap_cons,List.filter_cons,used,ih]
      cases hes : entriesOf canonical changes t with
      | nil => rfl
      | cons e es =>
        have hfull : fullSection canonical changes t = ⟨t,e :: es⟩ := congrArg (ChangeSection.mk t) hes
        exact congrArg (· :: _) hfull.symm
  exact hall canonical

lemma titles_sectionsOf (canonical : List Bytes) (changes : List Change) :
    (sectionsOf canonical changes).map ChangeSection.title = canonical.filter (used canonical changes) := by
  rw [sectionsOf_eq,List.map_map]
  exact List.map_id _

/-- The changes that go to a section with a title. -/
def titled (canonical : List Bytes) (changes : List Change) : List Change :=
  changes.filter fun c => sectionOf canonical c ≠ []

lemma entriesOf_eq (canonical : List Bytes) (changes : List Change) (title : Bytes) :
    entriesOf canonical changes title =
      ((titled canonical changes).filter fun c => sectionOf canonical c = title).map Prod.snd := by
  rw [entriesOf,titled,List.filter_filter]
  refine congrArg _ (List.filter_congr fun c _ => ?_)
  by_cases h : sectionOf canonical c = title
  · simp [h]
  · simp [h]

/-- The entries of all sections, title by title. -/
lemma entries_sectionsOf (canonical : List Bytes) (changes : List Change) :
    (sectionsOf canonical changes).flatMap ChangeSection.entries =
      (canonical.flatMap fun t => (titled canonical changes).filter fun c => sectionOf canonical c = t).map
        Prod.snd := by
  have hall : ∀ titles : List Bytes,
      ((titles.filter (used canonical changes)).map (fullSection canonical changes)).flatMap
        ChangeSection.entries = titles.flatMap (entriesOf canonical changes) := by
    intro titles
    induction titles with
    | nil => rfl
    | cons t ts ih =>
      rw [List.filter_cons,List.flatMap_cons,← ih]
      cases hu : used canonical changes t with
      | true => rfl
      | false =>
        rw [used,decide_eq_false_iff_not,not_not] at hu
        rw [hu]
        rfl
  rw [sectionsOf_eq,hall,List.map_flatMap]
  exact List.flatMap_congr fun t _ => entriesOf_eq canonical changes t

/-- Where no title in use is repeated the sections are in order already. -/
lemma sorted_sectionsOf (h : (canonical.filter (used canonical changes)).Nodup) :
    (sectionsOf canonical changes).insertionSort (fun a b =>
      ¬ canonicalPos (posOf canonical) b.title < canonicalPos (posOf canonical) a.title) =
        sectionsOf canonical changes := by
  have htitles : (canonical.zipIdx.filter fun e => used canonical changes e.1).map Prod.fst =
      canonical.filter (used canonical changes) := by
    have hfilter := List.filter_map (p := used canonical changes) (f := Prod.fst) (l := canonical.zipIdx)
    rw [List.zipIdx_map_fst] at hfilter
    exact hfilter.symm
  have hinj := List.inj_on_of_nodup_map (htitles ▸ h)
  have hpos : ∀ e ∈ canonical.zipIdx.filter (fun e => used canonical changes e.1),
      canonicalPos (posOf canonical) e.1 = e.2 := by
    intro e he
    obtain ⟨hmem,hused⟩ := List.mem_filter.mp he
    have hlookup : AList.lookup e.1 (posOf canonical) = some e.2 := by
      refine (GoMap.lookup_ofEntries fun i j hi hj => ?_).mpr hmem
      have hmem' : ∀ {i}, (e.1,i) ∈ canonical.zipIdx → (e.1,i) ∈ canonical.zipIdx.filter
          (fun e => used canonical changes e.1) := fun hi => List.mem_filter.mpr ⟨hi,hused⟩
      exact congrArg Prod.snd (hinj (hmem' hi) (hmem' hj) rfl)
    rw [canonicalPos,hlookup]
    rfl
  have hindices : canonical.zipIdx.Pairwise fun e e' => e.2 < e'.2 := by
    refine List.pairwise_map.mp ?_
    rw [List.zipIdx_map_snd]
    exact List.pairwise_lt_range'
  refine List.Pairwise.insertionSort_eq ?_
  rw [sectionsOf_eq,List.pairwise_map,← htitles,List.pairwise_map]
  refine (hindices.filter _).imp_of_mem fun {e e'} he he' hlt => ?_
  change ¬ canonicalPos (posOf canonical) e'.1 < canonicalPos (posOf canonical) e.1
  rw [hpos e he,hpos e' he']
  omega

/-- The changes are parted among sections, each of them with its own title, in the order of the titles. -/
structure Partition (canonical : List Bytes) (changes : List ChangeEntry) (model : GroupedModel) : Prop where
  all : (model.flatMap ChangeSection.entries).Perm changes
  in_order : ∀ s ∈ model, s.entries.Sublist changes
  titles : (model.map ChangeSection.title).Nodup
  ordered : (model.map ChangeSection.title).Sublist canonical

/-- Every change goes to a section with a title that is listed once. -/
def Placed (canonical : List Bytes) (changes : List Change) : Prop :=
  ∀ c ∈ changes, sectionOf canonical c ≠ [] ∧ canonical.count (sectionOf canonical c) = 1

lemma sectionOf_mem {c : Change} (h : sectionOf canonical c ≠ []) : sectionOf canonical c ∈ canonical := by
  rw [sectionOf] at h ⊢
  split
  · next hc => exact hc.2
  · next hc =>
    rw [if_neg hc,fallbackSection] at h
    rw [fallbackSection]
    split
    · next hother => exact hother
    · next hother =>
      rw [if_neg hother] at h
      cases canonical with
      | nil => exact absurd rfl h
      | cons t ts =>
        rw [List.getLastD_cons]
        exact List.getLastD_mem_cons

/-- A title in use is listed once just when it is no duplicate among those in use. -/
lemma nodup_used_iff : (canonical.filter (used canonical changes)).Nodup ↔
    ∀ c ∈ titled canonical changes, canonical.count (sectionOf canonical c) = 1 := by
  have hused : ∀ c ∈ titled canonical changes, used canonical changes (sectionOf canonical c) = true := by
    intro c hc
    obtain ⟨hc,hne⟩ := List.mem_filter.mp hc
    exact used_iff.mpr ⟨of_decide_eq_true hne,c,hc,rfl⟩
  rw [List.nodup_iff_count_eq_one]
  constructor
  · intro h c hc
    have hne := of_decide_eq_true (List.mem_filter.mp hc).2
    rw [← List.count_filter (hused c hc)]
    exact h _ (List.mem_filter.mpr ⟨sectionOf_mem hne,hused c hc⟩)
  · intro h t ht
    obtain ⟨-,ht⟩ := List.mem_filter.mp ht
    obtain ⟨hne,c,hc,rfl⟩ := used_iff.mp ht
    rw [List.count_filter ht]
    exact h c (List.mem_filter.mpr ⟨hc,decide_eq_true hne⟩)

/-- With no title in use repeated the sections hold the changes that have a title. -/
lemma entries_perm (h : (canonical.filter (used canonical changes)).Nodup) :
    ((sectionsOf canonical changes).flatMap ChangeSection.entries).Perm
      ((titled canonical changes).map Prod.snd) := by
  rw [entries_sectionsOf]
  exact (perm_flatMap_filter (sectionOf canonical) (nodup_used_iff.mp h)).map Prod.snd

variable (commits : List Commit) (prs : List MergedPR) (cfg : Config)

/-- Grouping is a partition of the changes, in the order of the titles, just when each of them has its place. -/
theorem BuildGroupedModel_partition_iff :
    Partition (canonicalOf cfg) ((changesOf commits prs cfg).map Prod.snd) (BuildGroupedModel commits prs cfg) ↔
      Placed (canonicalOf cfg) (changesOf commits prs cfg) := by
  rw [BuildGroupedModel_eq]
  generalize canonicalOf cfg = canonical
  generalize changesOf commits prs cfg = changes
  have hperm := List.perm_insertionSort (fun a b : ChangeSection =>
    ¬ canonicalPos (posOf canonical) b.title < canonicalPos (posOf canonical) a.title)
    (sectionsOf canonical changes)
  constructor
  · intro h
    have hnodup := (hperm.map ChangeSection.title).nodup_iff.mp h.titles
    rw [titles_sectionsOf] at hnodup
    have hentries := ((hperm.flatMap_right ChangeSection.entries).symm.trans h.all).symm.trans (entries_perm hnodup)
    have hlength := hentries.length_eq
    rw [List.length_map,List.length_map,titled] at hlength
    have hall := List.length_filter_eq_length_iff.mp hlength.symm
    intro c hc
    exact ⟨of_decide_eq_true (hall c hc),nodup_used_iff.mp hnodup c (List.mem_filter.mpr ⟨hc,hall c hc⟩)⟩
  · intro h
    have htitled : titled canonical changes = changes :=
      List.filter_eq_self.mpr fun c hc => decide_eq_true (h c hc).1
    have hnodup : (canonical.filter (used canonical changes)).Nodup :=
      nodup_used_iff.mpr fun c hc => (h c (List.mem_of_mem_filter hc)).2
    have hentries := entries_perm hnodup
    rw [htitled] at hentries
    rw [sorted_sectionsOf hnodup]
    refine ⟨hentries,fun s hs => ?_,?_,?_⟩
    · rw [sectionsOf_eq] at hs
      obtain ⟨t,-,rfl⟩ := List.mem_map.mp hs
      exact List.filter_sublist.map Prod.snd
    · rw [titles_sectionsOf]
      exact hnodup
    · rw [titles_sectionsOf]
      exact List.filter_sublist

end Sections

section Example

/-- One feature. -/
def feature : Commit := ⟨lit "a1",lit "feat: search",lit "kim"⟩

def titledConfig (sections : List Bytes) : Config := { grouping := { sections := sections } }

/-- A repeated title lists the change twice, and a blank one loses it. -/
theorem feature_doubled_or_lost :
    BuildGroupedModel [feature] [] (titledConfig [lit "Features",lit "Features"]) =
        [⟨lit "Features",[⟨lit "feat: search",lit "kim",lit "a1",0⟩]⟩,
          ⟨lit "Features",[⟨lit "feat: search",lit "kim",lit "a1",0⟩]⟩] ∧
      BuildGroupedModel [feature] [] (titledConfig [[]]) = [] := by
  decide +kernel

end Example

end ReleaseDocs
