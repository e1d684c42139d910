import Cadoo.ContextEngine.Compress
import Cadoo.Tools.DiffAnchor

/-! A truncated patch has no changed line that the whole patch does not have, as long as the line numbers stay
below the largest one. -/
namespace ContextEngine
open Bytes GoInt Tools

/-- A line that is cut short is added under the number that the whole line has. -/
lemma addedNumber_cut (s : Scan) (l x : Bytes) :
    (addedNumber s l).toList <+: (addedNumber s (l ++ x)).toList := by
  cases l with
  | nil =>
    have hnone : addedNumber s [] = none := by
      rw [addedNumber]
      cases s.inHunk <;> rfl
    rw [hnone]
    exact List.nil_prefix
  | cons b l =>
    cases hadded : hasPrefix (b :: l) (lit "+") with
    | false =>
      rw [addedNumber,hadded,Bool.and_false]
      exact List.nil_prefix
    | true =>
      obtain rfl : 43 = b := by
        rw [hasPrefix,List.isPrefixOf_iff_prefix] at hadded
        exact (List.cons_prefix_cons.mp hadded).1
      exact List.prefix_rfl

/-- The line that tells of the truncation. -/
def notice : Bytes := lit "... (truncated by Cadoo)"

lemma addedNumber_notice (s : Scan) : addedNumber s notice = none := by
  have hplus : hasPrefix notice (lit "+") = false := by decide
  rw [addedNumber,hplus,Bool.and_false]
  rfl

/-- The start of a text with the notice under it. -/
lemma addedNumbers_notice (s t : Bytes) :
    addedNumbers {} ((s ++ marker).splitOn newline) <+: addedNumbers {} ((s ++ t).splitOn newline) := by
  obtain ⟨front,last,x,rest,hs,hst⟩ := splitOn_append s t newline
  have hmarker : marker = newline :: notice := by decide
  have hno : newline ∉ notice := by decide
  rw [hmarker,List.splitOn_append_cons_self,List.splitOn_eq_singleton hno,hs,hst,List.append_assoc,
    addedNumbers_append,addedNumbers_append front (_ :: rest)]
  refine (List.prefix_append_right_inj _).mpr ?_
  rw [List.singleton_append,addedNumbers,addedNumbers,addedNumber_notice,addedNumbers,addedNumbers,
    Option.toList_none,List.append_nil,List.append_nil]
  exact (addedNumber_cut _ last x).trans (List.prefix_append _ _)

/-- Truncation takes the last added lines away. -/
theorem addedNumbers_truncatePatch (patch : Bytes) (tokenCap : ℤ) :
    addedNumbers {} ((truncatePatch patch tokenCap).splitOn newline) <+:
      addedNumbers {} (patch.splitOn newline) := by
  rw [truncatePatch]
  split
  · exact List.prefix_rfl
  split
  · exact addedNumbers_notice [] patch
  · obtain ⟨t,ht⟩ := (List.rdropWhile_prefix (· == newline)
      (patch.take (wrap (tokenCap*4) - marker.length).toNat)).trans (List.take_prefix _ patch)
    have hnotice := addedNumbers_notice
      (trimRight (patch.take (wrap (tokenCap*4) - marker.length).toNat) newline) t
    rw [trimRight,ht] at hnotice
    exact hnotice

/-- A line accepted after truncation is accepted before it. -/
theorem truncatePatch_narrows (patch : Bytes) (tokenCap : ℤ) {line : ℤ}
    (hunwrapped : Unwrapped (addedNumbers {} (patch.splitOn newline)))
    (h : InChangedLines (changedLineRanges (truncatePatch patch tokenCap)) line = true) :
    InChangedLines (changedLineRanges patch) line = true := by
  have hprefix := addedNumbers_truncatePatch patch tokenCap
  have hcut : Unwrapped _ := List.IsChain.prefix hunwrapped hprefix
  rw [inChangedLines_iff_mem hcut] at h
  rw [inChangedLines_iff_mem hunwrapped]
  exact h.imp_right fun hmem => hprefix.subset hmem

/-- Two added lines, from the last line number on. -/
def lastLine : Bytes := lit "@@ -1 +9223372036854775807 @@\n+a\n+println(\"no line comes after the last\")"

theorem last_line_widened :
    InChangedLines (changedLineRanges (truncatePatch lastLine 14)) 9223372036854775807 = true ∧
      InChangedLines (changedLineRanges lastLine) 9223372036854775807 = false := by
  decide +kernel

/-- Two added lines, from line 3 on. -/
def thirdLine : Bytes := lit "@@ -2 +3,2 @@\n+a\n+println(\"another line comes after the third\")"

theorem third_line_kept : InChangedLines (changedLineRanges thirdLine) 3 = true := by
  have hadded : addedNumbers {} (thirdLine.splitOn newline) = [3,4] := by decide +kernel
  refine truncatePatch_narrows thirdLine 11 ?_ (by decide +kernel)
  rw [hadded,Unwrapped]
  decide

end ContextEngine
