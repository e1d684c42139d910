import Cadoo.Lib.Splice
import Cadoo.Orchestrator.Consolidate

/-! Splicing the managed block into a pull-request description again and again. The place is found by
the first begin and the first end marker, wherever they come from. -/
namespace Orchestrator
open Bytes Utf8

/-- A text without a marker in it. -/
def Unmarked (s : Bytes) : Prop := ¬ prSectionBegin <:+: s ∧ ¬ prSectionEnd <:+: s

instance (s : Bytes) : Decidable (Unmarked s) := inferInstanceAs (Decidable (_ ∧ _))

/-- The block between the user's text and what follows it. -/
def managedBlock (sec : Bytes) : Bytes :=
  prSectionBegin ++ (lit "\n## " ++ descriptionAvatar ++ lit " Cadoo Description\n\n" ++ sec ++
    lit "\n") ++ prSectionEnd

/-- Everything outside one well-formed pair, or everything, stands around the block; only blanks next
to the block may have changed. -/
def KeepsText (original sec result : Bytes) : Prop :=
  ∃ u mid v front back, original = u ++ mid ++ v ∧
    (mid = [] ∨ ∃ m, mid = prSectionBegin ++ m ++ prSectionEnd ∧ Unmarked m) ∧
    result = front ++ managedBlock sec ++ back ∧
    front.rdropWhile blank = u.rdropWhile blank ∧ back.dropWhile blank = v.dropWhile blank

/-- A description with no marker, or whose first begin is closed by the first end with no begin
between them. -/
def Spliceable (original : Bytes) : Prop :=
  Unmarked original ∨ ∃ u m v, original = u ++ prSectionBegin ++ m ++ prSectionEnd ++ v ∧
    Unmarked u ∧ Unmarked m

def blockTitle : Bytes := lit "\n## " ++ descriptionAvatar ++ lit " Cadoo Description\n"

/-- The marks of the description. -/
def descriptionMarks : Splice.Marks where
  opens := prSectionBegin
  closes := prSectionEnd
  title := blockTitle
  opens_delimited := by
    have hshape : prSectionBegin = 60 :: ((prSectionBegin.drop 1).dropLast ++ [62]) := by decide
    rw [hshape]
    exact .of_notMem (by decide) (by decide)
  closes_delimited := by
    have hshape : prSectionEnd = 60 :: ((prSectionEnd.drop 1).dropLast ++ [62]) := by decide
    rw [hshape]
    exact .of_notMem (by decide) (by decide)
  opens_line := by decide
  closes_line := by decide
  opens_title := by decide +kernel
  closes_title := by decide +kernel
  opens_closes := by decide
  closes_opens := by decide

section Refinement

lemma Unmarked.trimSpace {s : Bytes} (h : Unmarked s) : Unmarked (trimSpace s) :=
  ⟨fun hin => h.1 (hin.trans (Utf8.trimSpace_isInfix s)),fun hin => h.2 (hin.trans (Utf8.trimSpace_isInfix s))⟩

lemma managedBlock_eq (sec : Bytes) : managedBlock sec = Splice.block descriptionMarks sec := by
  have hgap : lit " Cadoo Description\n\n" = lit " Cadoo Description\n" ++ [newline] := by decide
  change _ = prSectionBegin ++ (blockTitle ++ newline :: (sec ++ [newline])) ++ prSectionEnd
  rw [managedBlock,blockTitle,hgap]
  simp only [List.append_assoc,List.cons_append,List.nil_append]
  rfl

lemma joinBody_eq (u sec tail : Bytes) : joinBody u sec tail = Splice.join descriptionMarks u sec tail := by
  rw [Splice.join,← managedBlock_eq,joinBody,managedBlock,Splice.padded,Splice.follow]
  simp only [List.append_assoc]
  rfl

lemma spliceCadooBody_eq (original sec : Bytes) :
    spliceCadooBody original sec = Splice.splice descriptionMarks original (trimSpace sec) := by
  rw [spliceCadooBody,Splice.splice]
  simp only [joinBody_eq]
  rfl

variable {sec : Bytes} (hsec : Unmarked sec)
include hsec

/-- Around a section with no marker, a well-formed block has none inside. -/
lemma wellFormed_iff {m : Bytes} : Splice.WellFormed descriptionMarks sec m ↔ Unmarked m := by
  refine ⟨fun h => h.elim id fun hm => ?_,.inl⟩
  obtain ⟨hb,he⟩ := Splice.unmarked_iff (M := descriptionMarks).mp hsec
  rw [hm]
  refine Splice.unmarked_iff (M := descriptionMarks).mpr ⟨?_,?_⟩
  · rw [Splice.occurrences_inner descriptionMarks.opens_delimited descriptionMarks.opens_line
      descriptionMarks.opens_title,hb]
  · rw [Splice.occurrences_inner descriptionMarks.closes_delimited descriptionMarks.closes_line
      descriptionMarks.closes_title,he]

lemma keepsText_iff (original result : Bytes) :
    KeepsText original sec result ↔ Splice.Keeps descriptionMarks original sec result := by
  simp only [KeepsText,Splice.Keeps,wellFormed_iff hsec,managedBlock_eq]
  rfl

lemma spliceable_iff (original : Bytes) :
    Spliceable original ↔ Splice.Spliceable descriptionMarks original sec := by
  simp only [Spliceable,Splice.Spliceable,wellFormed_iff hsec]
  rfl

end Refinement

/-- Splicing a description twice is splicing it once, and no text outside a well-formed pair is lost,
exactly when the description has no marker at all or its first begin is closed by its first end with
no other begin between them. -/
theorem splice_idempotent_iff (original : Bytes) {s₁ s₂ : Bytes} (hs₁ : Unmarked s₁)
    (hs₂ : Unmarked s₂) :
    (spliceCadooBody (spliceCadooBody original s₁) s₂ = spliceCadooBody original s₂ ∧
      KeepsText original (trimSpace s₂) (spliceCadooBody original s₂)) ↔ Spliceable original := by
  obtain ⟨-,h₁⟩ := Splice.unmarked_iff (M := descriptionMarks).mp hs₁.trimSpace
  obtain ⟨-,h₂⟩ := Splice.unmarked_iff (M := descriptionMarks).mp hs₂.trimSpace
  rw [spliceCadooBody_eq,spliceCadooBody_eq,spliceCadooBody_eq,keepsText_iff hs₂.trimSpace,
    spliceable_iff hs₂.trimSpace]
  exact Splice.splice_again_iff original h₁ h₂

section Unclosed

/-- A begin marker that was pasted into the user's text. -/
def unclosed : Bytes := lit "Fixes #12\n" ++ prSectionBegin ++ lit "\nKeep this."

/-- The second splice drops what follows the pasted marker. -/
theorem unclosed_loses_text :
    let once := spliceCadooBody unclosed (lit "One change.")
    let twice := spliceCadooBody once (lit "One change.")
    lit "Keep this." <:+: once ∧ twice ≠ once ∧ ¬ lit "Keep this." <:+: twice := by
  decide +kernel

def closed : Bytes :=
  lit "Fixes #12\n" ++ prSectionBegin ++ lit "old" ++ prSectionEnd ++ lit "\nKeep this."

theorem closed_keeps_text : spliceCadooBody (spliceCadooBody closed (lit "One change."))
    (lit "Two changes.") = spliceCadooBody closed (lit "Two changes.") := by
  have hs₁ : Unmarked (lit "One change.") := by decide +kernel
  have hs₂ : Unmarked (lit "Two changes.") := by decide +kernel
  have hclosed : Spliceable closed :=
    .inr ⟨lit "Fixes #12\n",lit "old",lit "\nKeep this.",rfl,by decide +kernel,by decide +kernel⟩
  exact ((splice_idempotent_iff closed hs₁ hs₂).mpr hclosed).1

end Unclosed

end Orchestrator
