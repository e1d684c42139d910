import Cadoo.Lib.Occurrences
import Cadoo.Orchestrator.Consolidate

/-! The reviewed SHA that an overview carries, read back among sections of any text: it comes from the marker of
the overview itself, or, when there is none, from the first section in which one opens. -/
namespace Orchestrator
open Bytes Utf8 Vcs Findings

section Parse

lemma reviewedSHAPrefix_opens : Opens reviewedSHAPrefix 60 := by
  have hshape : reviewedSHAPrefix = 60 :: lit "!-- cadoo:reviewed-sha:" := by decide
  rw [hshape]
  exact Opens.of_notMem (by decide)

lemma reviewedSHASuffix_opens : Opens reviewedSHASuffix 32 := by
  have hshape : reviewedSHASuffix = 32 :: lit "-->" := by decide
  rw [hshape]
  exact Opens.of_notMem (by decide)

/-- What is read once a marker has opened. -/
def readSHA (rest : Bytes) : Bytes :=
  match cut rest reviewedSHASuffix with
  | none => []
  | some (candidate,_) => if reviewedSHARe candidate then candidate else []

lemma reviewedSHARe_iff {sha : Bytes} :
    reviewedSHARe sha = true ↔ sha.length = 40 ∧ ∀ b ∈ sha, Sha1.isHexDigit b = true := by
  simp [reviewedSHARe]

lemma occurrences_suffix {sha : Bytes} (h : reviewedSHARe sha = true) : occurrences reviewedSHASuffix sha = 0 := by
  rw [occurrences_eq_zero reviewedSHASuffix_opens.ne_nil]
  intro hin
  have hspace : 32 ∈ sha := hin.subset (List.mem_of_head? reviewedSHASuffix_opens.head?_eq)
  exact absurd ((reviewedSHARe_iff.mp h).2 32 hspace) (by decide)

lemma readSHA_marked {sha : Bytes} (h : reviewedSHARe sha = true) (rest : Bytes) :
    readSHA (sha ++ reviewedSHASuffix ++ rest) = sha := by
  rw [readSHA,cut_opens reviewedSHASuffix_opens (occurrences_suffix h) rest]
  exact if_pos h

/-- Nothing behind the line is part of a SHA. -/
lemma readSHA_line (x y : Bytes) : readSHA (x ++ newline :: y) = readSHA x := by
  cases hx : cut x reviewedSHASuffix with
  | some r =>
    obtain ⟨u,v⟩ := r
    obtain ⟨rfl,hu⟩ := cut_eq_some reviewedSHASuffix_opens hx
    have hcut := cut_opens reviewedSHASuffix_opens hu (v ++ newline :: y)
    rw [readSHA,readSHA,hx,List.append_assoc,hcut]
  | none =>
    have hnone : readSHA x = [] := by rw [readSHA,hx]
    rw [hnone,readSHA]
    cases hxy : cut (x ++ newline :: y) reviewedSHASuffix with
    | none => rfl
    | some r =>
      obtain ⟨u,v⟩ := r
      obtain ⟨heq,-⟩ := cut_eq_some reviewedSHASuffix_opens hxy
      have hline : newline ∈ u := by
        rw [List.append_assoc] at heq
        rcases append_eq_append_cons heq.symm with ⟨g,rfl,-⟩ | ⟨g,hg,hrest⟩
        · exact List.mem_append_right x List.mem_cons_self
        rcases append_eq_append_cons hrest with ⟨k,hk,-⟩ | ⟨k,hk,-⟩
        · have hmem : newline ∈ reviewedSHASuffix := hk ▸ List.mem_append_right g List.mem_cons_self
          exact absurd hmem (by decide)
        · have hzero := (cut_eq_none reviewedSHASuffix_opens).mp hx
          rw [hg,hk,← List.append_assoc,reviewedSHASuffix_opens.occurrences_around] at hzero
          omega
      dsimp only
      rw [if_neg]
      exact fun h => absurd ((reviewedSHARe_iff.mp h).2 newline hline) (by decide)

lemma ParseReviewedSHA_marked {x : Bytes} (hx : occurrences reviewedSHAPrefix x = 0) (rest : Bytes) :
    ParseReviewedSHA (x ++ reviewedSHAPrefix ++ rest) = readSHA rest := by
  rw [ParseReviewedSHA,cut_opens reviewedSHAPrefix_opens hx]
  rfl

lemma ParseReviewedSHA_quiet {x : Bytes} (hx : occurrences reviewedSHAPrefix x = 0) : ParseReviewedSHA x = [] := by
  rw [ParseReviewedSHA,(cut_eq_none reviewedSHAPrefix_opens).mpr hx]

/-- Lines in which no marker opens are passed over. -/
lemma ParseReviewedSHA_skip {x : Bytes} (hx : occurrences reviewedSHAPrefix x = 0) (y : Bytes) :
    ParseReviewedSHA (x ++ newline :: y) = ParseReviewedSHA y := by
  have hnewline : newline ∉ reviewedSHAPrefix := by decide
  have hfront : ∀ u, occurrences reviewedSHAPrefix u = 0 →
      occurrences reviewedSHAPrefix (x ++ newline :: u) = 0 := by
    intro u hu
    rw [occurrences_foreign reviewedSHAPrefix_opens.ne_nil hnewline,hx,hu]
  cases hy : cut y reviewedSHAPrefix with
  | none =>
    have hzero := (cut_eq_none reviewedSHAPrefix_opens).mp hy
    rw [ParseReviewedSHA_quiet hzero,ParseReviewedSHA_quiet (hfront y hzero)]
  | some r =>
    obtain ⟨u,v⟩ := r
    obtain ⟨rfl,hu⟩ := cut_eq_some reviewedSHAPrefix_opens hy
    have hshift : x ++ newline :: (u ++ reviewedSHAPrefix ++ v) = (x ++ newline :: u) ++ reviewedSHAPrefix ++ v := by
      simp
    rw [hshift,ParseReviewedSHA_marked hu,ParseReviewedSHA_marked (hfront u hu)]

/-- Lines in which a marker opens decide, whatever follows them. -/
lemma ParseReviewedSHA_stop {x : Bytes} (hx : occurrences reviewedSHAPrefix x ≠ 0) (y : Bytes) :
    ParseReviewedSHA (x ++ newline :: y) = ParseReviewedSHA x := by
  cases hcut : cut x reviewedSHAPrefix with
  | none => exact absurd ((cut_eq_none reviewedSHAPrefix_opens).mp hcut) hx
  | some r =>
    obtain ⟨u,v⟩ := r
    obtain ⟨rfl,hu⟩ := cut_eq_some reviewedSHAPrefix_opens hcut
    rw [List.append_assoc (u ++ reviewedSHAPrefix),ParseReviewedSHA_marked hu,ParseReviewedSHA_marked hu,readSHA_line]

/-- The first marker that opens in the text is a well-formed one. -/
def Forges (body : Bytes) : Prop :=
  ∃ u sha v, body = u ++ RenderReviewedSHA sha ++ v ∧ ¬ reviewedSHAPrefix <:+: u ∧ reviewedSHARe sha = true

lemma Forges_iff {body : Bytes} : Forges body ↔ ParseReviewedSHA body ≠ [] := by
  constructor
  · rintro ⟨u,sha,v,rfl,hu,hsha⟩
    rw [← occurrences_eq_zero reviewedSHAPrefix_opens.ne_nil] at hu
    have htext : u ++ RenderReviewedSHA sha ++ v = u ++ reviewedSHAPrefix ++ (sha ++ reviewedSHASuffix ++ v) := by
      simp [RenderReviewedSHA]
    rw [htext,ParseReviewedSHA_marked hu,readSHA_marked hsha]
    rintro rfl
    exact absurd (reviewedSHARe_iff.mp hsha).1 (by decide)
  · intro h
    cases hcut : cut body reviewedSHAPrefix with
    | none => exact absurd (ParseReviewedSHA_quiet ((cut_eq_none reviewedSHAPrefix_opens).mp hcut)) h
    | some r =>
      obtain ⟨u,rest⟩ := r
      obtain ⟨rfl,hu⟩ := cut_eq_some reviewedSHAPrefix_opens hcut
      rw [ParseReviewedSHA_marked hu,readSHA] at h
      cases hcut' : cut rest reviewedSHASuffix with
      | none => simp [hcut'] at h
      | some r' =>
        obtain ⟨sha,v⟩ := r'
        obtain ⟨rfl,-⟩ := cut_eq_some reviewedSHASuffix_opens hcut'
        have hsha : reviewedSHARe sha = true := by
          by_contra hno
          rw [hcut'] at h
          exact h (if_neg hno)
        refine ⟨u,sha,v,?_,(occurrences_eq_zero reviewedSHAPrefix_opens.ne_nil).mp hu,hsha⟩
        simp [RenderReviewedSHA]

end Parse

section Header

/-- A word that no header has, and one that no title in title case has. -/
lemma caWord_delimited : Delimited (lit " ca") 32 97 := by
  have hshape : lit " ca" = 32 :: ([99] ++ [97]) := by decide
  rw [hshape]
  exact Delimited.of_notMem (by decide) (by decide)

lemma cWord_delimited : Delimited (lit " c") 32 99 := by
  have hshape : lit " c" = 32 :: ([] ++ [99]) := by decide
  rw [hshape]
  exact Delimited.of_notMem (by decide) (by decide)

lemma upperLetter_ne {r : Char} (h : isLower r = true) :
    Char.ofNat (r.toNat-32) ≠ ' ' ∧ Char.ofNat (r.toNat-32) ≠ 'c' := by
  have hn : ∀ n : Fin 128, isLower (Char.ofNat n) = true →
      Char.ofNat (n-32) ≠ ' ' ∧ Char.ofNat (n-32) ≠ 'c' := by decide
  have hle : r.val ≤ 'z'.val := by
    simp only [isLower,Bool.and_eq_true,decide_eq_true_eq] at h
    exact h.2
  have hlt : r.toNat < 128 := Nat.lt_of_le_of_lt (UInt32.le_iff_toNat_le.mp hle) (by decide)
  exact hn ⟨r.toNat,hlt⟩ (by simpa using h)

/-- In title case no word begins with a small `c`. -/
lemma titleCaseFrom_quiet (upper : Bool) (rs : List Char) :
    (upper = true → (encode (titleCaseFrom upper rs)).head? ≠ some 99) ∧
      occurrences (lit " c") (encode (titleCaseFrom upper rs)) = 0 := by
  induction rs generalizing upper with
  | nil => exact ⟨fun _ => by simp [titleCaseFrom,encode],rfl⟩
  | cons r rs ih =>
    rw [titleCaseFrom]
    split
    · next hr =>
      have hspace : String.utf8EncodeChar ' ' = [32] := by decide
      have hword : lit " c" = [32,99] := by decide
      obtain ⟨hhead,hrest⟩ := ih true
      rw [hr,encode_cons,hspace,List.singleton_append]
      refine ⟨fun _ h => absurd (Option.some.inj h) (by decide),?_⟩
      rw [occurrences,hrest,if_neg]
      rw [hword,List.cons_prefix_cons,List.singleton_prefix_iff_head?_eq_some]
      exact fun h => hhead rfl h.2
    · next hr =>
      obtain ⟨-,hrest⟩ := ih false
      rw [encode_cons]
      generalize hx : (if (upper && isLower r) = true then Char.ofNat (r.toNat-32) else r) = x
      have hspace : 32 ∉ String.utf8EncodeChar x := by
        intro h
        have hchar : x = ' ' := eq_of_mem_encodeChar (by decide) h
        by_cases hlow : (upper && isLower r) = true
        · rw [if_pos hlow] at hx
          exact (upperLetter_ne (Bool.and_eq_true_iff.mp hlow).2).1 (hx.trans hchar)
        · rw [if_neg hlow] at hx
          exact hr (hx.trans hchar)
      refine ⟨fun hupper h => ?_,by rw [cWord_delimited.opens.occurrences_before hspace,hrest]⟩
      rw [List.head?_append_of_ne_nil _ (List.ne_nil_of_length_pos (length_encodeChar_pos x))] at h
      have hchar : x = 'c' := eq_of_mem_encodeChar (by decide) (List.mem_of_head? h)
      by_cases hlow : isLower r = true
      · rw [if_pos (by rw [hupper,hlow]; rfl)] at hx
        exact (upperLetter_ne hlow).2 (hx.trans hchar)
      · rw [if_neg (by simp [hlow])] at hx
        rw [hx,hchar] at hlow
        exact hlow (by decide)

/-- What holds of the empty string and of every entry holds of every label. -/
lemma label_all {P : Bytes → Prop} {table : List (Bytes × Bytes)} (hnil : P []) (h : ∀ p ∈ table, P p.2)
    (tool : Bytes) : P (label table tool) := by
  rw [label]
  cases hl : table.lookup tool with
  | none => exact hnil
  | some v =>
    obtain ⟨l₁,l₂,rfl,-⟩ := List.lookup_eq_some_iff.mp hl
    exact h (tool,v) (by simp)

lemma occurrences_label {table : List (Bytes × Bytes)} (h : ∀ p ∈ table, occurrences (lit " ca") p.2 = 0)
    (tool : Bytes) : occurrences (lit " ca") (label table tool) = 0 :=
  label_all (P := fun t => occurrences (lit " ca") t = 0) rfl h tool

lemma occurrences_shownTitle (tool : Bytes) : occurrences (lit " ca") (shownTitle tool) = 0 := by
  rw [shownTitle]
  split
  · have hquiet := (titleCaseFrom_quiet true (runes (replaceAll tool (lit "_") (lit " ")))).2
    rw [occurrences_eq_zero cWord_delimited.opens.ne_nil] at hquiet
    rw [occurrences_eq_zero caWord_delimited.opens.ne_nil]
    have hin : lit " c" <:+: lit " ca" := by decide
    exact fun h => hquiet (hin.trans h)
  · exact occurrences_label (by decide +kernel) tool

lemma occurrences_shownEmoji (tool : Bytes) : occurrences (lit " ca") (shownEmoji tool) = 0 := by
  rw [shownEmoji]
  split
  · decide
  · exact occurrences_label (by decide +kernel) tool

/-- No marker opens in a header, whatever the tool is called. -/
lemma occurrences_sectionHeader (tool : Bytes) : occurrences reviewedSHAPrefix (sectionHeader tool) = 0 := by
  have hshape : sectionHeader tool = lit "<details><summary" ++ 62 :: ((shownEmoji tool ++ [32]) ++
      60 :: (lit "strong" ++ 62 :: (shownTitle tool ++ 60 :: lit "/strong></summary>\n"))) := by
    have h₁ : lit "<details><summary>" = lit "<details><summary" ++ [62] := by decide
    have h₂ : lit " <strong>" = [32] ++ 60 :: (lit "strong" ++ [62]) := by decide
    have h₃ : lit "</strong></summary>\n" = 60 :: lit "/strong></summary>\n" := by decide
    rw [sectionHeader,h₁,h₂,h₃]
    simp
  have hne := caWord_delimited.opens.ne_nil
  have hblank : occurrences (lit " ca") (shownEmoji tool ++ [32]) = 0 := by
    rw [caWord_delimited.occurrences_behind (shownEmoji tool) (by decide),occurrences_shownEmoji]
  have hheader : occurrences (lit " ca") (sectionHeader tool) = 0 := by
    have h₁ : occurrences (lit " ca") (lit "<details><summary") = 0 := by decide
    have h₂ : occurrences (lit " ca") (lit "strong") = 0 := by decide
    have h₃ : occurrences (lit " ca") (lit "/strong></summary>\n") = 0 := by decide
    rw [hshape,occurrences_foreign hne (c := 62) (by decide),occurrences_foreign hne (c := 60) (by decide),
      occurrences_foreign hne (c := 62) (by decide),occurrences_foreign hne (c := 60) (by decide),h₁,hblank,h₂,
      occurrences_shownTitle,h₃]
  rw [occurrences_eq_zero hne] at hheader
  rw [occurrences_eq_zero reviewedSHAPrefix_opens.ne_nil]
  have hin : lit " ca" <:+: reviewedSHAPrefix := by decide
  exact fun h => hheader (hin.trans h)

end Header

section Sections

/-- The order in which the sections are shown. -/
def displayed (sections : List Section) : List Section := sections.insertionSort fun a b => sectionLess b a = false

/-- What is read of sections one after the other: the first in which a marker opens decides. -/
def sectionsSHA : List Section → Bytes
  | [] => []
  | s :: rest =>
    if reviewedSHAPrefix <:+: trimSpace s.body then ParseReviewedSHA (trimSpace s.body) else sectionsSHA rest

lemma ParseReviewedSHA_sections (sections : List Section) :
    ParseReviewedSHA (sections.flatMap (fun s => renderSection s ++ lit "\n") ++ wrapperEnd) =
      sectionsSHA sections := by
  induction sections with
  | nil => decide
  | cons s rest ih =>
    have hclose : occurrences reviewedSHAPrefix (lit "\n</details>\n") = 0 := by decide
    rw [List.flatMap_cons,List.append_assoc,renderSection_eq,
      ParseReviewedSHA_skip (occurrences_sectionHeader s.tool),sectionsSHA]
    split
    · next h =>
      have hopen : occurrences reviewedSHAPrefix (trimSpace s.body) ≠ 0 :=
        fun hz => (occurrences_eq_zero reviewedSHAPrefix_opens.ne_nil).mp hz h
      rw [ParseReviewedSHA_stop hopen]
    · next h =>
      rw [ParseReviewedSHA_skip ((occurrences_eq_zero reviewedSHAPrefix_opens.ne_nil).mpr h),
        ParseReviewedSHA_skip hclose,ih]

/-- A section whose text opens the first marker of all. -/
def Opening (sections : List Section) (s : Section) : Prop := ∃ before after,
  sections = before ++ s :: after ∧ ∀ x ∈ before, ¬ reviewedSHAPrefix <:+: trimSpace x.body

lemma sectionsSHA_ne_nil_iff (sections : List Section) :
    sectionsSHA sections ≠ [] ↔ ∃ s, Opening sections s ∧ Forges (trimSpace s.body) := by
  induction sections with
  | nil => simp [sectionsSHA,Opening]
  | cons s rest ih =>
    have hstep : ∀ x, Opening (s :: rest) x ↔
        s = x ∨ ¬ reviewedSHAPrefix <:+: trimSpace s.body ∧ Opening rest x :=
      fun x => exists_split_cons (P := fun z : Section => ¬ reviewedSHAPrefix <:+: trimSpace z.body)
    rw [sectionsSHA]
    split
    · next h =>
      rw [← Forges_iff]
      constructor
      · exact fun hf => ⟨s,(hstep s).mpr (.inl rfl),hf⟩
      · rintro ⟨x,hx,hf⟩
        rcases (hstep x).mp hx with rfl | ⟨hno,-⟩
        · exact hf
        · exact absurd h hno
    · next h =>
      rw [ih]
      constructor
      · rintro ⟨x,hx,hf⟩
        exact ⟨x,(hstep x).mpr (.inr ⟨h,hx⟩),hf⟩
      · rintro ⟨x,hx,hf⟩
        rcases (hstep x).mp hx with rfl | ⟨-,hx⟩
        · obtain ⟨u,sha,v,hbody,-,-⟩ := hf
          have hin : reviewedSHAPrefix <:+: trimSpace s.body :=
            ⟨u,sha ++ reviewedSHASuffix ++ v,by rw [hbody,RenderReviewedSHA]; simp⟩
          exact absurd hin h
        · exact ⟨x,hx,hf⟩

/-- An overview gives back the SHA it was made for just when it carries one, or no section shown forges one. -/
theorem ParseReviewedSHA_renderConsolidated_iff (sections : List Section) {sha : Bytes}
    (h : sha = [] ∨ reviewedSHARe sha = true) : ParseReviewedSHA (renderConsolidated sections sha) = sha ↔
      sha ≠ [] ∨ ¬ ∃ s, Opening (displayed sections) s ∧ Forges (trimSpace s.body) := by
  by_cases hempty : sha = []
  · have hbegin : occurrences reviewedSHAPrefix wrapperBegin = 0 := by decide
    have htext : renderConsolidated sections [] = wrapperBegin ++ newline ::
        ((displayed sections).flatMap (fun s => renderSection s ++ lit "\n") ++ wrapperEnd) := by
      have hlit : lit "\n" = [newline] := by decide
      simp [renderConsolidated,displayed,hlit]
    rw [hempty,htext,ParseReviewedSHA_skip hbegin,ParseReviewedSHA_sections,← sectionsSHA_ne_nil_iff]
    simp
  · have hsha : reviewedSHARe sha = true := h.resolve_left hempty
    have hfront : occurrences reviewedSHAPrefix (wrapperBegin ++ lit "\n") = 0 := by decide
    have htext : renderConsolidated sections sha = (wrapperBegin ++ lit "\n") ++ reviewedSHAPrefix ++
        (sha ++ reviewedSHASuffix ++ (lit "\n" ++
          ((displayed sections).flatMap (fun s => renderSection s ++ lit "\n") ++ wrapperEnd))) := by
      simp [renderConsolidated,displayed,hempty,RenderReviewedSHA]
    rw [htext,ParseReviewedSHA_marked hfront,readSHA_marked hsha]
    exact iff_of_true rfl (.inl hempty)

def reviewedHead : Bytes := lit "aabbccddeeff00112233445566778899aabbccdd"

theorem reviewedHead_read : ParseReviewedSHA (renderConsolidated
    [⟨lit "review",RenderReviewedSHA (lit "00112233445566778899aabbccddeeff00112233")⟩] reviewedHead) =
      reviewedHead :=
  (ParseReviewedSHA_renderConsolidated_iff _ (.inr (by decide))).mpr (.inl (by decide))

/-- Without a head of its own an overview gives the SHA that a section's text names. -/
theorem forged_head_read : ParseReviewedSHA (renderConsolidated
    [⟨lit "review",lit "Looks good. " ++ RenderReviewedSHA reviewedHead⟩] []) = reviewedHead ∧
      reviewedHead ≠ [] := by
  decide +kernel

end Sections

end Orchestrator
