import Cadoo.Orchestrator.Dispatcher
import Cadoo.Tools.DiffAnchor

/-! The review tool, from the findings of the model to the comments and the check run. -/
namespace Tools.Review
open Bytes Utf8 Vcs

/-- One issue as the model gives it. -/
structure Finding where
  file : Bytes
  lineStart : ℤ
  lineEnd : ℤ
  severity : Bytes
  title : Bytes
  body : Bytes
  deriving DecidableEq

structure Output where
  summary : Bytes
  findings : List Finding
  deriving DecidableEq

structure CommentPolicy where
  silentOnClean : Bool := false
  skipIfOnlyNits : Bool := false
  minFindingsToPost : ℤ := 0

/-- What the tool reads of the repository's settings. -/
structure Config where
  severityThreshold : Bytes := []
  requestChangesOn : List Bytes := []
  maxComments : ℤ := 0
  commentPolicy : CommentPolicy := {}

def CheckRunName : Bytes := lit "cadoo/review"

variable (U : Tables)

def severityRank (s : Bytes) : ℕ :=
  let s := toLower U s
  if s = lit "block" then 3 else if s = lit "warn" then 2 else 1

/-- The comment a finding becomes. -/
def convert (f : Finding) : InlineComment where
  file := f.file
  lineStart := f.lineStart
  lineEnd := f.lineEnd
  body := if f.title ≠ [] then lit "**" ++ f.title ++ lit "**\n\n" ++ f.body else f.body
  severity := toLower U f.severity

/-- The loop over the findings. It stops as soon as there are enough comments. -/
def convertEach (threshold : ℕ) (maxComments : ℤ) (changedMap : GoMap Bytes (List (ℤ × ℤ))) :
    List Finding → List InlineComment → List InlineComment
  | [], out => out
  | f :: fs, out =>
    if InChangedLines (changedMap.get f.file) f.lineStart = false then
      convertEach threshold maxComments changedMap fs out
    else if severityRank U (toLower U f.severity) < threshold then
      convertEach threshold maxComments changedMap fs out
    else
      let out := out ++ [convert U f]
      if maxComments ≤ out.length then out
      else convertEach threshold maxComments changedMap fs out

def convertFindings (findings : List Finding) (cfg : Config)
    (changedMap : GoMap Bytes (List (ℤ × ℤ))) : List InlineComment :=
  let maxComments := if cfg.maxComments ≤ 0 then 30 else cfg.maxComments
  convertEach U (severityRank U cfg.severityThreshold) maxComments changedMap findings []

def hasBlocking (findings : List Finding) (blockOn : List Bytes) : Bool :=
  let blockOn := if blockOn = [] then [lit "block"] else blockOn
  findings.any fun f => toLower U f.severity ∈ blockOn.map (toLower U)

/-- Findings that are only nits, or too few of them, are not posted. -/
def shouldSuppress (inlines : List InlineComment) (p : CommentPolicy) : Bool :=
  inlines ≠ [] &&
    ((p.skipIfOnlyNits && inlines.all fun c => c.severity = SeverityNit) ||
      (0 < p.minFindingsToPost && (inlines.length : ℤ) < p.minFindingsToPost))

def silentTitle (inlines : List InlineComment) : Bytes :=
  if inlines = [] then lit "no issues"
  else natDecimal inlines.length ++ lit " finding(s) below post threshold"

/-- The tool, given the packed files and what the model answers. -/
def Run (cfg : Config) (files : List FileChange) (answer : Except Err Output) :
    Except Err Orchestrator.Result :=
  match answer with
  | .error err => .error err
  | .ok out =>
    let inlines := convertFindings U out.findings cfg (BuildChangedMap files)
    let check (status : CheckRunStatus) (title : Bytes) : CheckRun :=
      { name := CheckRunName, status := status, title := title, summary := out.summary }
    if inlines = [] ∧ cfg.commentPolicy.silentOnClean then
      .ok { checkRun := some (check .succeeded (lit "no findings")) }
    else if shouldSuppress inlines cfg.commentPolicy then
      .ok { checkRun := some (check .succeeded (silentTitle inlines)) }
    else
      let status := if hasBlocking U out.findings cfg.requestChangesOn then .failed else .succeeded
      .ok {
        inlineComments := inlines
        checkRun := some (check status (natDecimal inlines.length ++ lit " findings")) }

variable {U}

/-- Every comment made is that of a finding whose first line is a changed one. -/
lemma mem_convertEach {threshold : ℕ} {maxComments : ℤ} {changedMap : GoMap Bytes (List (ℤ × ℤ))}
    {fs : List Finding} {out : List InlineComment} {c : InlineComment}
    (h : c ∈ convertEach U threshold maxComments changedMap fs out) : c ∈ out ∨
      ∃ f ∈ fs, c = convert U f ∧ InChangedLines (changedMap.get f.file) f.lineStart = true := by
  have hout : ∀ {f : Finding} {fs : List Finding} {out : List InlineComment},
      InChangedLines (changedMap.get f.file) f.lineStart = true → c ∈ out ++ [convert U f] →
        c ∈ out ∨ ∃ f' ∈ f :: fs, c = convert U f' ∧
          InChangedLines (changedMap.get f'.file) f'.lineStart = true := by
    intro f fs out hf hc
    rcases List.mem_append.mp hc with hc | hc
    · exact .inl hc
    · exact .inr ⟨f,List.mem_cons_self,List.mem_singleton.mp hc,hf⟩
  induction fs generalizing out with
  | nil => exact .inl h
  | cons f fs ih =>
    have hlater : ∀ {out}, c ∈ convertEach U threshold maxComments changedMap fs out →
        c ∈ out ∨ ∃ f' ∈ f :: fs, c = convert U f' ∧
          InChangedLines (changedMap.get f'.file) f'.lineStart = true := by
      intro out hc
      rcases ih hc with hc | ⟨f',hf',hc⟩
      · exact .inl hc
      · exact .inr ⟨f',List.mem_cons_of_mem f hf',hc⟩
    rw [convertEach] at h
    split at h
    · exact hlater h
    · next hchanged =>
      have hchanged : InChangedLines (changedMap.get f.file) f.lineStart = true := by simpa using hchanged
      split at h
      · exact hlater h
      · dsimp only at h
        split at h
        · exact hout hchanged h
        · rcases hlater h with hc | hc
          · exact hout hchanged hc
          · exact .inr hc

theorem mem_convertFindings {findings : List Finding} {cfg : Config}
    {changedMap : GoMap Bytes (List (ℤ × ℤ))} {c : InlineComment}
    (h : c ∈ convertFindings U findings cfg changedMap) :
    InChangedLines (changedMap.get c.file) c.lineStart = true := by
  rcases mem_convertEach h with h | ⟨f,-,rfl,hf⟩
  · simp at h
  · exact hf

section Status
variable (cfg : Config) (files : List FileChange) (out : Output)

/-- The severities that fail the check. -/
def blockOn : List Bytes := if cfg.requestChangesOn = [] then [lit "block"] else cfg.requestChangesOn

variable (U) in
/-- The comments that a run without a comment policy posts. -/
def candidates : List InlineComment := convertFindings U out.findings cfg (BuildChangedMap files)

variable (U) in
/-- The comment policy keeps the run from posting anything: there is nothing to post, there are only nits, or too few
comments. -/
def Suppressed : Prop :=
  (candidates U cfg files out = [] ∧ cfg.commentPolicy.silentOnClean = true) ∨
    candidates U cfg files out ≠ [] ∧
      ((cfg.commentPolicy.skipIfOnlyNits = true ∧ ∀ c ∈ candidates U cfg files out, c.severity = SeverityNit) ∨
        (0 < cfg.commentPolicy.minFindingsToPost ∧
          ((candidates U cfg files out).length : ℤ) < cfg.commentPolicy.minFindingsToPost))

lemma shouldSuppress_iff {inlines : List InlineComment} {p : CommentPolicy} : shouldSuppress inlines p = true ↔
    inlines ≠ [] ∧ ((p.skipIfOnlyNits = true ∧ ∀ c ∈ inlines, c.severity = SeverityNit) ∨
      (0 < p.minFindingsToPost ∧ (inlines.length : ℤ) < p.minFindingsToPost)) := by
  simp [shouldSuppress]

variable (U) in
/-- Some finding of the model has a listed severity, whether or not it can be posted. -/
def Blocking : Prop := ∃ f ∈ out.findings, toLower U f.severity ∈ (blockOn cfg).map (toLower U)

lemma hasBlocking_iff : hasBlocking U out.findings cfg.requestChangesOn = true ↔ Blocking U cfg out := by
  rw [hasBlocking,List.any_eq_true]
  simp only [decide_eq_true_iff]
  rfl

lemma blocking_of_posted {c : InlineComment} (hc : c ∈ candidates U cfg files out)
    (h : c.severity ∈ (blockOn cfg).map (toLower U)) : Blocking U cfg out := by
  rcases mem_convertEach hc with hc | ⟨f,hf,rfl,-⟩
  · cases hc
  · exact ⟨f,hf,h⟩

/-- The check fails just when the policy lets the run post and some finding is listed; a run that posts a listed
comment always fails. -/
theorem Run_failed_iff : ∃ r c, Run U cfg files (.ok out) = .ok r ∧ r.checkRun = some c ∧
    (c.status = .failed ↔ ¬ Suppressed U cfg files out ∧ Blocking U cfg out) ∧
    ((∃ i ∈ r.inlineComments, i.severity ∈ (blockOn cfg).map (toLower U)) → c.status = .failed) := by
  rw [Run]
  by_cases hclean : candidates U cfg files out = [] ∧ cfg.commentPolicy.silentOnClean = true
  · refine ⟨_,_,if_pos hclean,rfl,iff_of_false (fun h => nomatch h) fun h => h.1 (.inl hclean),?_⟩
    rintro ⟨i,hi,-⟩
    cases hi
  · by_cases hpolicy : shouldSuppress (candidates U cfg files out) cfg.commentPolicy = true
    · have hquiet : Suppressed U cfg files out := .inr (shouldSuppress_iff.mp hpolicy)
      refine ⟨_,_,(if_neg hclean).trans (if_pos hpolicy),rfl,iff_of_false (fun h => nomatch h) fun h => h.1 hquiet,?_⟩
      rintro ⟨i,hi,-⟩
      cases hi
    · have hposts : ¬ Suppressed U cfg files out := fun h =>
        h.elim hclean fun h => hpolicy (shouldSuppress_iff.mpr h)
      have hstatus : (if hasBlocking U out.findings cfg.requestChangesOn then CheckRunStatus.failed
          else .succeeded) = .failed ↔ Blocking U cfg out := by
        rw [← hasBlocking_iff]
        split
        · next h => exact iff_of_true rfl h
        · next h => exact iff_of_false (fun hs => nomatch hs) h
      refine ⟨_,_,(if_neg hclean).trans (if_neg hpolicy),rfl,hstatus.trans (and_iff_right hposts).symm,?_⟩
      rintro ⟨i,hi,hlisted⟩
      exact hstatus.mpr (blocking_of_posted cfg files out hi hlisted)

/-- A blocking finding on a line that the patch does not change. -/
theorem unposted_finding_fails : ∃ r c,
    Run Tables.plain {} [{ path := lit "x.go", patch := lit "@@ -4,0 +5,1 @@\n+added" }]
      (.ok ⟨lit "ok",[⟨lit "x.go",99,99,lit "block",lit "Race",lit "Lock it."⟩]⟩) = .ok r ∧
      r.checkRun = some c ∧ c.status = .failed ∧ r.inlineComments = [] := by
  refine ⟨_,_,rfl,rfl,?_,?_⟩
  · decide +kernel
  · decide +kernel

end Status

end Tools.Review
