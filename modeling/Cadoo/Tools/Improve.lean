import Cadoo.Orchestrator.Dispatcher
import Cadoo.Tools.DiffAnchor

/-! The improve tool: the suggestions of the model as comments with a suggestion block. -/
namespace Tools.Improve
open Bytes Utf8 Vcs

structure Suggestion where
  file : Bytes
  lineStart : ℤ
  lineEnd : ℤ
  rationale : Bytes
  code : Bytes
  deriving DecidableEq

structure Output where
  summary : Bytes
  suggestions : List Suggestion
  deriving DecidableEq

def renderSuggestionBody (s : Suggestion) : Bytes :=
  let action := trimSpace s.rationale
  let action := if action = [] then lit "Apply suggested change." else action
  lit "**Suggestions:**\n- " ++ action ++ lit "\n\n```suggestion\n" ++ s.code ++ lit "\n```"

def buildSection (out : Output) : Bytes :=
  let intent := trimSpace out.summary
  if intent ≠ [] then intent
  else if out.suggestions = [] then lit "No high-leverage improvements found in this diff."
  else []

/-- The suggestions whose first line is a changed one. -/
def inlines (changedMap : GoMap Bytes (List (ℤ × ℤ))) (suggestions : List Suggestion) :
    List InlineComment :=
  (suggestions.filter fun s => InChangedLines (changedMap.get s.file) s.lineStart).map fun s =>
    ⟨s.file,s.lineStart,s.lineEnd,renderSuggestionBody s,[]⟩

/-- The tool, given the packed files and what the model answers. -/
def Run (files : List FileChange) (answer : Except Err Output) : Except Err Orchestrator.Result :=
  match answer with
  | .error err => .error err
  | .ok out =>
    .ok {
      summary := buildSection out
      inlineComments := inlines (BuildChangedMap files) out.suggestions }

theorem mem_inlines {changedMap : GoMap Bytes (List (ℤ × ℤ))} {suggestions : List Suggestion}
    {c : InlineComment} (h : c ∈ inlines changedMap suggestions) :
    InChangedLines (changedMap.get c.file) c.lineStart = true := by
  obtain ⟨s,hs,rfl⟩ := List.mem_map.mp h
  exact (List.mem_filter.mp hs).2

end Tools.Improve
