import Cadoo.Findings.Store
import Cadoo.Vcs.Marker

/-! Dedup state carried by the comments themselves: the stamp on what is posted, and the store
rebuilt from what is read back. -/
namespace Findings
open Bytes Utf8 Vcs

variable (U : Tables)

def stampData (tool : Bytes) (c : InlineComment) : MarkerData where
  tool := tool
  sk := StructuralKey U tool c
  sev := c.severity
  nt := normalizeTitle U c.body

/-- The body of a comment with its hidden marker. -/
def StampInline (tool : Bytes) (c : InlineComment) : Bytes :=
  c.body ++ lit "\n\n" ++ InlineMarker (stampData U tool c)

/-- The record seeded from a finding read back; it has no fingerprint. -/
def seedRec (pi : PriorInline) : FindingRec where
  tool := pi.tool
  file := pi.file
  severity := pi.severity
  structuralKey := pi.structuralKey
  normalizedTitle := if pi.normalizedTitle = [] then normalizeTitle U pi.title else pi.normalizedTitle
  title := pi.title
  externalID := pi.externalID
  resolved := pi.resolved
  line := pi.line

def priorMemory (key : PRKey) (pr : PriorReview) : MemoryStore where
  findings := if pr.inline = [] then ∅ else AList.singleton key (pr.inline.map (seedRec U))
  summaries :=
    if pr.summaryCommentID = [] then ∅ else AList.singleton (key,WrapperToolKey) pr.summaryCommentID
  lastReviewedSHA := pr.lastReviewedSHA

lemma priorMemory_get (key key' : PRKey) (pr : PriorReview) :
    (priorMemory U key pr).findings.get key' =
      if key' = key then pr.inline.map (seedRec U) else [] := by
  rw [priorMemory]
  by_cases hi : pr.inline = []
  · simp only [hi,if_true,List.map_nil,ite_self]
    rfl
  · rw [if_neg hi,← AList.insert_empty,GoMap.get_insert_eq]
    rfl

lemma priorMemory_findings (key : PRKey) (pr : PriorReview) :
    (priorMemory U key pr).findings.get key = pr.inline.map (seedRec U) := by
  rw [priorMemory_get,if_pos rfl]

def NewFromPrior (key : PRKey) (pr : PriorReview) : Store := { mem := some (priorMemory U key pr) }

end Findings
