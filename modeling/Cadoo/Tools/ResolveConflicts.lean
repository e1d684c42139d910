import Cadoo.Orchestrator.Dispatcher

/-! The tool that proposes resolutions for the conflict markers left in a diff. -/
namespace Tools.ResolveConflicts
open Bytes Vcs

structure Resolution where
  file : Bytes
  lineStart : ℤ
  lineEnd : ℤ
  rationale : Bytes
  code : Bytes
  deriving DecidableEq

structure Output where
  summary : Bytes
  resolutions : List Resolution
  deriving DecidableEq

def HasConflicts (files : List FileChange) : Bool := files.any fun f => contains f.patch (lit "<<<<<<<")

def heading : Bytes := lit "## Cadoo `/resolve_conflicts`\n\n"

/-- The comment a resolution becomes. -/
def inline (r : Resolution) : InlineComment where
  file := r.file
  lineStart := r.lineStart
  lineEnd := r.lineEnd
  body := lit "**Conflict resolution** — " ++ r.rationale ++ lit "\n\n```suggestion\n" ++ r.code ++ lit "\n```"
  severity := []

/-- The tool, given the packed files and what the model answers. -/
def Run (files : List FileChange) (answer : Except Err Output) : Except Err Orchestrator.Result :=
  if HasConflicts files = false then
    .ok { summary := heading ++ lit "No merge-conflict markers found in this PR's diff." }
  else
    match answer with
    | .error err => .error err
    | .ok out =>
      let inlines := out.resolutions.map inline
      let summary := if out.summary ≠ [] then heading ++ out.summary else heading
      let summary :=
        if inlines = [] then summary ++ lit "\n\n_No actionable resolutions emitted._" else summary
      .ok { summary := summary, inlineComments := inlines }

end Tools.ResolveConflicts
