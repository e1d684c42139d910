import Cadoo.Lib.Fence
import Cadoo.Tools.Improve
import Cadoo.Tools.ResolveConflicts

/-! When the suggestion block of a comment carries exactly the code that is suggested. -/
namespace Tools
open Bytes Fence Utf8 Vcs

/-- Read by the rule of fenced blocks, the body has one suggestion, and that is the code. -/
def Carries (body code : Bytes) : Prop :=
  ((blocks body).filter fun b => b.info == lit "suggestion").map Block.text = [code ++ [newline]]

instance (body code : Bytes) : Decidable (Carries body code) := inferInstanceAs (Decidable (_ = _))

/-- No line of the code closes the fence it is put in. -/
def Unfenced (code : Bytes) : Prop := ∀ l ∈ lines code, closes backtick 3 l = false

instance (code : Bytes) : Decidable (Unfenced code) :=
  inferInstanceAs (Decidable (∀ l ∈ lines code, closes backtick 3 l = false))

/-- What both tools write: some lines that open nothing, an empty line, and the code between two fences. -/
lemma carries_iff {front code : Bytes} (hfront : ∀ l ∈ lines front, opening l = none) (hcode : 13 ∉ code) :
    Carries (front ++ lit "\n\n```suggestion\n" ++ code ++ lit "\n```") code ↔ Unfenced code := by
  have hbody : lines (front ++ lit "\n\n```suggestion\n" ++ code ++ lit "\n```") =
      (lines front ++ [[]]) ++ lit "```suggestion" :: (lines code ++ [lit "```"]) := by
    have hopen : lit "\n\n```suggestion\n" = newline :: ([] ++ newline :: (lit "```suggestion" ++ [newline])) := by
      decide
    have hclose : lit "\n```" = newline :: lit "```" := by decide
    have hfirst : lines (lit "```suggestion") = [lit "```suggestion"] := by decide
    have hlast : lines (lit "```") = [lit "```"] := by decide
    rw [hopen,hclose]
    simp only [List.append_assoc,List.cons_append,List.nil_append]
    rw [lines_append,← List.nil_append (newline :: (lit "```suggestion" ++ _)),lines_append,lines_append,
      lines_append,hfirst,hlast]
    rfl
  have hnone : ∀ l ∈ lines front ++ [[]], opening l = none := by
    intro l hl
    rcases List.mem_append.mp hl with hl | hl
    · exact hfront l hl
    · rw [List.mem_singleton.mp hl]
      rfl
  have hsuggestion : opening (lit "```suggestion") = some ⟨backtick,3,0,lit "suggestion"⟩ := by decide
  rw [Carries,blocks,hbody]
  exact read_exact_iff hnone hsuggestion rfl (by decide) hcode

/-- A line that both tools begin with a letter of their own opens nothing. -/
lemma opening_front (first : UInt8) (hfirst : first ≠ space ∧ first ≠ backtick ∧ first ≠ tilde) {line : Bytes}
    (hhead : line.head? = some first) (hline : OneLine line) : ∀ l ∈ lines line, opening l = none := by
  intro l hl
  rw [lines_of_oneLine hline,List.mem_singleton] at hl
  rw [hl]
  exact opening_other hhead hfirst

/-- A suggestion of the improve tool. -/
lemma Improve.carries_iff {s : Improve.Suggestion} (hrationale : OneLine s.rationale) (hcode : 13 ∉ s.code) :
    Carries (Improve.renderSuggestionBody s) s.code ↔ Unfenced s.code := by
  have haction : ∀ {action : Bytes}, OneLine action →
      ∀ l ∈ lines (lit "**Suggestions:**\n- " ++ action), opening l = none := by
    intro action hone l hl
    have hfront : lit "**Suggestions:**\n- " = lit "**Suggestions:**" ++ newline :: lit "- " := by decide
    rw [hfront,List.append_assoc,List.cons_append,lines_append,List.mem_append] at hl
    rcases hl with hl | hl
    · exact opening_front 42 (by decide) rfl (by decide) l hl
    · refine opening_front 45 (by decide) rfl ?_ l hl
      exact OneLine.append (by decide) hone
  have hwritten : OneLine (if trimSpace s.rationale = [] then lit "Apply suggested change." else
      trimSpace s.rationale) := by
    split
    · decide
    · exact fun b hb => hrationale b (mem_trimSpace hb)
  exact Tools.carries_iff (haction hwritten) hcode

/-- A resolution of the other tool. -/
lemma ResolveConflicts.carries_iff {r : ResolveConflicts.Resolution} (hrationale : OneLine r.rationale)
    (hcode : 13 ∉ r.code) : Carries (ResolveConflicts.inline r).body r.code ↔ Unfenced r.code := by
  refine Tools.carries_iff (opening_front 42 (by decide) rfl ?_) hcode
  exact OneLine.append (by decide) hrationale

/-- Both tools write code that can be applied as it is exactly when no line of it closes a fence of three backticks. -/
theorem suggested_code_exact_iff (s : Improve.Suggestion) (files : List FileChange) (out : ResolveConflicts.Output) :
    (OneLine s.rationale → 13 ∉ s.code → (Carries (Improve.renderSuggestionBody s) s.code ↔ Unfenced s.code)) ∧
    (ResolveConflicts.HasConflicts files = true →
      ∃ result, ResolveConflicts.Run files (.ok out) = .ok result ∧
        List.Forall₂ (fun r c => OneLine r.rationale → 13 ∉ r.code → (Carries c.body r.code ↔ Unfenced r.code))
          out.resolutions result.inlineComments) := by
  refine ⟨Improve.carries_iff,?_⟩
  intro hconflicts
  rw [ResolveConflicts.Run,if_neg (by rw [hconflicts]; decide)]
  refine ⟨_,rfl,?_⟩
  rw [List.forall₂_map_right_iff,List.forall₂_same]
  exact fun r _ => ResolveConflicts.carries_iff

section Examples

def usage : Improve.Suggestion := ⟨lit "README.md",3,3,lit "Name the flag.",lit "make -j4\n"⟩
def conflict : FileChange := { path := lit "README.md", patch := lit "+<<<<<<< ours" }
def merged : ResolveConflicts.Resolution := ⟨lit "README.md",3,7,lit "Keep both.",lit "make\nmake check"⟩

theorem plain_code_carried : Carries (Improve.renderSuggestionBody usage) usage.code ∧
    ∃ result c, ResolveConflicts.Run [conflict] (.ok ⟨[],[merged]⟩) = .ok result ∧
      result.inlineComments = [c] ∧ Carries c.body merged.code := by
  obtain ⟨husage,hresolved⟩ := suggested_code_exact_iff usage [conflict] ⟨[],[merged]⟩
  refine ⟨(husage (by decide) (by decide)).mpr (by decide),?_⟩
  obtain ⟨result,hrun,hall⟩ := hresolved (by decide)
  obtain ⟨c,rest,hc,hrest,hcomments⟩ := List.forall₂_cons_left_iff.mp hall
  rw [List.forall₂_nil_left_iff.mp hrest] at hcomments
  exact ⟨result,c,hrun,hcomments,(hc (by decide) (by decide)).mpr (by decide)⟩

/-- A Markdown file that shows a command: the block ends before the line that ends the example. -/
def fencedUsage : Improve.Suggestion := { usage with code := lit "```sh\nmake -j4\n```" }
def fencedMerged : ResolveConflicts.Resolution := { merged with code := lit "```sh\nmake\n```" }

theorem fenced_code_cut : OneLine fencedUsage.rationale ∧ 13 ∉ fencedUsage.code ∧
    ¬ Carries (Improve.renderSuggestionBody fencedUsage) fencedUsage.code ∧
    OneLine fencedMerged.rationale ∧ 13 ∉ fencedMerged.code ∧
    ¬ Carries (ResolveConflicts.inline fencedMerged).body fencedMerged.code :=
  ⟨by decide,by decide,by decide,by decide,by decide,by decide⟩

end Examples

end Tools
