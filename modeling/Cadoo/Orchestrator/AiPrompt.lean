import Cadoo.Orchestrator.Consolidate

/-! The collapsed prompt block appended to the posted copy of an inline comment. -/
namespace Orchestrator
open Bytes Vcs

def cadooAIIconURL : Bytes := asset "AI.png"

def buildAIPromptBlock (c : InlineComment) (iconURL : Bytes) : Bytes :=
  let summaryLabel := lit "Prompt for AI Agents"
  let summaryLabel :=
    if iconURL ≠ [] then
      lit "<img src=\"" ++ iconURL ++ lit "\" width=\"16\" height=\"16\" alt=\"AI\"/> " ++ summaryLabel
    else summaryLabel
  let lineRef :=
    if c.lineStart = 0 then []
    else if c.lineStart = c.lineEnd then lit " line " ++ intDecimal c.lineStart
    else lit " lines " ++ intDecimal c.lineStart ++ lit "–" ++ intDecimal c.lineEnd
  let prompt := lit "Fix the following code review finding.\n\n**File:** `" ++ c.file ++ lit "`" ++
    lineRef ++ lit "\n**Severity:** " ++ c.severity ++ lit "\n\n" ++ c.body
  let prompt := replaceAll prompt (lit "```") (lit "` ``")
  lit "<details>\n<summary>" ++ summaryLabel ++ lit "</summary>\n\n```\n" ++ prompt ++
    lit "\n```\n\n</details>"

end Orchestrator
