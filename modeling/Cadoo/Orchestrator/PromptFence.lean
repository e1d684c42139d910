import Cadoo.Lib.Fence
import Cadoo.Orchestrator.AiPrompt

/-! What is quoted in the prompt block does not close the fence around it. -/
namespace Orchestrator
open Bytes Vcs Fence

/-- The prompt of a comment, before three backticks in a row are taken apart. -/
def rawPrompt (c : InlineComment) : Bytes :=
  let lineRef :=
    if c.lineStart = 0 then []
    else if c.lineStart = c.lineEnd then lit " line " ++ intDecimal c.lineStart
    else lit " lines " ++ intDecimal c.lineStart ++ lit "–" ++ intDecimal c.lineEnd
  lit "Fix the following code review finding.\n\n**File:** `" ++ c.file ++ lit "`" ++
    lineRef ++ lit "\n**Severity:** " ++ c.severity ++ lit "\n\n" ++ c.body

def escapeFences (s : Bytes) : Bytes := replaceAll s (lit "```") (lit "` ``")

def escapedPrompt (c : InlineComment) : Bytes := escapeFences (rawPrompt c)

/-- The fence before the prompt. -/
def promptFence : Opening := ⟨backtick,3,0,[]⟩

def summaryLabel (iconURL : Bytes) : Bytes :=
  let label := lit "Prompt for AI Agents"
  if iconURL ≠ [] then
    lit "<img src=\"" ++ iconURL ++ lit "\" width=\"16\" height=\"16\" alt=\"AI\"/> " ++ label
  else label

/-- The lines before the fence. -/
def promptFront (iconURL : Bytes) : Bytes :=
  lit "<details>\n" ++ (lit "<summary>" ++ summaryLabel iconURL ++ lit "</summary>" ++ lit "\n\n")

/-- The prompt and what is after it. -/
def promptRest (c : InlineComment) : Bytes := escapedPrompt c ++ lit "\n```\n\n</details>"

section Escape

lemma oneLine_escapeFences {s : Bytes} (h : OneLine s) : OneLine (escapeFences s) := by
  have hnew : OneLine (lit "` ``") := by decide
  intro b hb
  exact (mem_replaceFrom hb).elim (h b) (hnew b)

/-- The lines of the escaped text are the lines of the text, escaped. -/
theorem lines_escapeFences (s : Bytes) : lines (escapeFences s) = (lines s).map escapeFences := by
  induction hn : s.length using Nat.strong_induction_on generalizing s with
  | h n ih =>
    rcases first_of ends s with hone | ⟨u,e,v,rfl,hu,he⟩
    · rw [lines_of_oneLine hone,lines_of_oneLine (oneLine_escapeFences hone)]
      rfl
    · have hfence : e ∉ lit "```" := by
        have hone : OneLine (lit "```") := by decide
        intro hmem
        rw [hone e hmem] at he
        exact Bool.false_ne_true he
      have hescaped : escapeFences (u ++ e :: v) = escapeFences u ++ e :: escapeFences v :=
        replaceAll_append_cons hfence (by decide) u v
      have hv : v.length < n := by
        rw [← hn,List.length_append,List.length_cons]
        omega
      rw [hescaped,lines_end _ _ he,lines_end _ _ he,ih v.length hv v rfl,lines_of_oneLine hu,
        lines_of_oneLine (oneLine_escapeFences hu)]
      rfl

lemma escapeFences_cons {b : UInt8} (hb : b ≠ backtick) (s : Bytes) :
    escapeFences (b :: s) = b :: escapeFences s :=
  replaceAll_cons hb s

/-- Two backticks are in front of an escaped text at the most: three of them are taken apart after the first. -/
lemma run_escapeFences (s : Bytes) : run backtick (escapeFences s) ≤ 2 := by
  have hother : ∀ {b : UInt8}, b ≠ backtick → ∀ t, run backtick (escapeFences (b :: t)) = 0 := by
    intro b hb t
    rw [escapeFences_cons hb,run_other hb]
  rcases s with _ | ⟨a,s⟩
  · decide
  by_cases ha : a = backtick
  · subst ha
    rcases s with _ | ⟨b,s⟩
    · decide
    by_cases hb : b = backtick
    · subst hb
      rcases s with _ | ⟨d,s⟩
      · decide
      by_cases hd : d = backtick
      · subst hd
        have htaken : escapeFences (backtick :: backtick :: backtick :: s) = backtick :: space :: backtick ::
            backtick :: escapeFences s := rfl
        rw [htaken,run_self,run_other (by decide)]
        omega
      · have hkept : escapeFences (backtick :: backtick :: d :: s) = backtick :: backtick :: escapeFences (d :: s) := by
          have hprefix : hasPrefix (backtick :: backtick :: d :: s) (lit "```") = false := by
            change (true && (true && (backtick == d && true))) = false
            rw [beq_eq_false_iff_ne.mpr (Ne.symm hd)]
            rfl
          rw [escapeFences,replaceAll_unmatched hprefix,replaceAll_unmatched]
          · rfl
          · change (true && (backtick == d && _)) = false
            rw [beq_eq_false_iff_ne.mpr (Ne.symm hd)]
            rfl
        rw [hkept,run_self,run_self,hother hd]
    · have hkept : escapeFences (backtick :: b :: s) = backtick :: escapeFences (b :: s) := by
        refine replaceAll_unmatched ?_
        change (true && (backtick == b && _)) = false
        rw [beq_eq_false_iff_ne.mpr (Ne.symm hb)]
        rfl
      rw [hkept,run_self,hother hb]
      omega
  · rw [hother ha]
    omega

/-- The first letter stays, also where three backticks are taken apart. -/
lemma escapeFences_head (b : UInt8) (s : Bytes) : ∃ t, escapeFences (b :: s) = b :: t := by
  by_cases hmatch : hasPrefix (b :: s) (lit "```") = true
  · obtain ⟨t,ht⟩ := List.isPrefixOf_iff_prefix.mp hmatch
    obtain ⟨rfl,-⟩ := List.cons_eq_cons.mp ht
    rw [escapeFences,replaceAll,replaceFrom,if_pos hmatch]
    exact ⟨_,rfl⟩
  · exact ⟨_,replaceAll_unmatched (Bool.eq_false_iff.mpr hmatch)⟩

/-- An escaped line does not close the fence. -/
theorem closes_escapeFences (s : Bytes) : closes backtick 3 (escapeFences s) = false := by
  induction s with
  | nil => rfl
  | cons b s ih =>
    by_cases hb : b = space
    · rw [hb,escapeFences_cons (by decide)]
      exact closes_space ih
    · obtain ⟨t,ht⟩ := escapeFences_head b s
      have hrun := run_escapeFences (b :: s)
      rw [ht] at hrun ⊢
      rw [closes,run_other hb,List.drop_zero,decide_eq_false (show ¬ 3 ≤ run backtick (b :: t) by omega)]
      rfl

end Escape

section Block
variable (c : InlineComment)

lemma buildAIPromptBlock_eq (iconURL : Bytes) :
    buildAIPromptBlock c iconURL = promptFront iconURL ++ (lit "```\n" ++ promptRest c) := by
  have hopen : lit "<details>\n<summary>" = lit "<details>\n" ++ lit "<summary>" := by decide
  have hclose : lit "</summary>\n\n```\n" = lit "</summary>" ++ (lit "\n\n" ++ lit "```\n") := by decide
  change lit "<details>\n<summary>" ++ summaryLabel iconURL ++ lit "</summary>\n\n```\n" ++ escapedPrompt c ++
    lit "\n```\n\n</details>" = _
  rw [hopen,hclose,promptFront,promptRest]
  simp only [List.append_assoc]

lemma lines_escapedPrompt (l : Bytes) (h : l ∈ lines (escapedPrompt c)) : closes backtick 3 l = false := by
  rw [escapedPrompt,lines_escapeFences] at h
  obtain ⟨t,-,rfl⟩ := List.mem_map.mp h
  exact closes_escapeFences t

/-- From the fence on, the first line that closes it is the one written after the prompt. -/
lemma read_escapedPrompt : read (some (promptFence,[])) (lines (promptRest c)) = [⟨[],lines (escapedPrompt c)⟩] := by
  have htail : lines (promptRest c) = lines (escapedPrompt c) ++ lit "```" :: [[],lit "</details>"] :=
    (lines_append (escapedPrompt c) (lit "```\n\n</details>")).trans rfl
  rw [htail,read_closed (o := promptFence) (lines_escapedPrompt c) rfl rfl]
  rfl

/-- The lines before the fence open nothing. -/
lemma blocks_promptFront {iconURL : Bytes} (h : OneLine iconURL) (s : Bytes) :
    blocks (promptFront iconURL ++ s) = blocks s := by
  have hline : OneLine (lit "<summary>" ++ summaryLabel iconURL ++ lit "</summary>") := by
    have hlabel : OneLine (summaryLabel iconURL) := by
      rw [summaryLabel]
      split
      · exact ((OneLine.append (by decide) h).append (by decide)).append (by decide)
      · decide
    exact (OneLine.append (by decide) hlabel).append (by decide)
  have hlines : lines (promptFront iconURL ++ s) =
      [lit "<details>",lit "<summary>" ++ summaryLabel iconURL ++ lit "</summary>",[]] ++ lines s := by
    have hfront : promptFront iconURL ++ s = lit "<details>" ++ newline :: ((lit "<summary>" ++
        summaryLabel iconURL ++ lit "</summary>") ++ newline :: ([] ++ newline :: s)) := by
      have hfirst : lit "<details>\n" = lit "<details>" ++ [newline] := by decide
      have hempty : lit "\n\n" = [newline] ++ [newline] := by decide
      rw [promptFront,hfirst,hempty]
      simp only [List.append_assoc]
      rfl
    rw [hfront,lines_append,lines_append,lines_append,lines_of_oneLine hline]
    rfl
  rw [blocks,hlines]
  refine read_outside ?_ (lines s)
  have hother : (60 : UInt8) ≠ space ∧ (60 : UInt8) ≠ backtick ∧ (60 : UInt8) ≠ tilde := by decide
  simp only [List.forall_mem_cons]
  exact ⟨opening_other rfl hother,opening_other rfl hother,rfl,by simp⟩

/-- Whatever the comment, no line of the prompt in its block closes the fence: the block is one fenced block with the
whole prompt, closed by the line that is written after it. -/
theorem buildAIPromptBlock_closed (iconURL : Bytes) :
    (∀ l ∈ lines (escapedPrompt c), closes backtick 3 l = false) ∧
      buildAIPromptBlock c iconURL = promptFront iconURL ++ (lit "```\n" ++ promptRest c) ∧
      opening (lit "```") = some promptFence ∧
      read (some (promptFence,[])) (lines (promptRest c)) = [⟨[],lines (escapedPrompt c)⟩] ∧
      blocks (buildAIPromptBlock c cadooAIIconURL) = [⟨[],lines (escapedPrompt c)⟩] := by
  have hopening : opening (lit "```") = some promptFence := by decide
  refine ⟨lines_escapedPrompt c,buildAIPromptBlock_eq c iconURL,hopening,read_escapedPrompt c,?_⟩
  have hfence : lines (lit "```\n" ++ promptRest c) = lit "```" :: lines (promptRest c) := by
    have hline : lit "```\n" = lit "```" ++ [newline] := by decide
    have hone : lines (lit "```") = [lit "```"] := by decide
    rw [hline,List.append_assoc,List.singleton_append,lines_append,hone,List.singleton_append]
  rw [buildAIPromptBlock_eq,blocks_promptFront (by decide),blocks,hfence,Fence.read,hopening]
  exact read_escapedPrompt c

end Block
end Orchestrator
