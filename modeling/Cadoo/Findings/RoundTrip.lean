import Cadoo.Findings.Prior

/-! The hidden marker read back: what is stamped on a comment is what a later run sees, unless the
comment itself upsets the marker. -/
namespace Findings
open Bytes Utf8 Vcs

variable (U : Tables)

/-- The stamp is recovered in full, and the body up to trailing line breaks. -/
def RoundTrips (tool : Bytes) (c : InlineComment) (trailing : Bytes) : Prop :=
  ∃ stripped, ParseInlineMarker (StampInline U tool c ++ trailing) = some (stampData U tool c,stripped) ∧
    trimRight stripped newline = trimRight c.body newline

lemma StructuralKey_nonSpace (tool : Bytes) (c : InlineComment) :
    ∀ b ∈ StructuralKey U tool c, reNonSpace b = true := by
  intro b hb
  have hd := isHexDigit_of_mem_StructuralKey U hb
  apply reNonSpace_of_printable
  simp only [Sha1.isHexDigit,Bool.or_eq_true,Bool.and_eq_true,decide_eq_true_eq] at hd
  rcases hd with ⟨hlow,-⟩ | ⟨hlow,-⟩
  · exact UInt8.lt_of_lt_of_le (by decide) hlow
  · exact UInt8.lt_of_lt_of_le (by decide) hlow

/-- A stamped comment read back, whatever follows the stamp. -/
theorem ParseInlineMarker_StampInline {tool : Bytes} {c : InlineComment} (pre trailing : Bytes)
    (ht : tool ≠ []) (htool : ∀ b ∈ tool, reNonSpace b = true)
    (hsev : ∀ b ∈ c.severity, reNonSpace b = true)
    (hb : inlineMarkerRe.search (pre ++ c.body) = none) :
    ParseInlineMarker (pre ++ (StampInline U tool c ++ trailing)) =
      some (stampData U tool c,trimRight (pre ++ c.body) newline) := by
  have h : ParseInlineMarker (pre ++ c.body ++ (lit "\n\n" ++ (InlineMarker (stampData U tool c) ++
      trailing))) = some (stampData U tool c,trimRight (pre ++ c.body) newline) :=
    ParseInlineMarker_stamped hb ht htool (StructuralKey_ne_nil U tool c)
      (StructuralKey_nonSpace U tool c) hsev
  simpa [StampInline] using h

/-- The stamp of a tool round-trips exactly when the tool has a name, the severity has no blanks,
and the body holds no marker of its own. -/
theorem roundTrips_iff {tool : Bytes} (htool : ∀ b ∈ tool, reNonSpace b = true) (c : InlineComment)
    (trailing : Bytes) : RoundTrips U tool c trailing ↔
      tool ≠ [] ∧ (∀ b ∈ c.severity, reNonSpace b = true) ∧ inlineMarkerRe.search c.body = none := by
  constructor
  · rintro ⟨stripped,h,hs⟩
    obtain ⟨-,-,-,-,ht,hsev⟩ := ParseInlineMarker_eq_some h
    refine ⟨ht,hsev,?_⟩
    by_contra hb
    rw [StampInline,List.append_assoc,List.append_assoc] at h
    exact stripped_ne_of_marker hb h hs
  · rintro ⟨ht,hsev,hb⟩
    exact ⟨_,ParseInlineMarker_StampInline U [] trailing ht htool hsev hb,trimRight_trimRight _ _⟩

section Examples

def leakyHandler : InlineComment where
  file := lit "server.go"
  lineStart := 40
  lineEnd := 42
  body := lit "**Handler leaks a goroutine**"
  severity := lit "warn"

theorem roundTrips_leakyHandler : RoundTrips Tables.plain (lit "review") leakyHandler [] :=
  (roundTrips_iff Tables.plain (List.all_eq_true.mp rfl) leakyHandler []).mpr
    ⟨by decide,List.all_eq_true.mp rfl,by decide⟩

/-- A severity of two words, put in lower case as the review tool does. -/
def vagueHandler : InlineComment :=
  { leakyHandler with severity := toLower Tables.plain (lit "Needs Attention") }

/-- Its marker is not recognised at all. -/
theorem two_word_severity_lost : ¬ RoundTrips Tables.plain (lit "review") vagueHandler [] := by
  rintro ⟨stripped,h,-⟩
  have hnone : ParseInlineMarker (StampInline Tables.plain (lit "review") vagueHandler ++ []) =
      none := by
    decide +kernel
  exact absurd (hnone.symm.trans h) (by simp)

end Examples

end Findings
