import Cadoo.Orchestrator.Dispatcher

/-! A run on a store seeded from the pull request itself, and the threads that were resolved before it.
The seeded record knows that its thread is resolved; the list the run resolves from does not. -/
namespace Orchestrator
open Bytes Utf8 Vcs Findings

variable (U : Tables) {W : Type} {d : Dispatcher W} {job : ToolJob} {key : PRKey} {review : PriorReview}

/-- The priors of a run on a seeded store are the artifacts read back. -/
lemma priorFindings_seeded {key' : PRKey} {tool : Bytes} (ht : tool ≠ []) :
    priorFindings (some (NewFromPrior U key review)) key' tool =
      if key' = key then review.inline.map fun a => (seedRec U a).posted else [] := by
  rw [priorFindings,if_neg ht]
  change ((priorMemory U key review).findings.get key').map FindingRec.posted = _
  rw [priorMemory_get]
  split
  · rw [List.map_map]
    rfl
  · rfl

/-- A run calls for no thread that was read back as resolved exactly when every artifact with the id of such a thread is
of another tool, has no id, lies outside of the change set, or has a key that a comment repeats. -/
theorem resolved_left_alone_iff {host : W}
    (D : Dispatched d job ⟨host,some (NewFromPrior U key review),[]⟩) {res : Result}
    (hres : D.tool D.input = .ok (some res)) :
    (∀ a ∈ review.inline, a.resolved = true → a.externalID ∉
      resolvedIDs (Run U d job ⟨host,some (NewFromPrior U key review),[]⟩).2.calls) ↔
    (providerKey D.provider D.pr = key → ∀ a ∈ review.inline, a.resolved = true →
      ∀ b ∈ review.inline, b.externalID = a.externalID → b.tool ≠ (withDefaults job).tool ∨ b.externalID = [] ∨
        (D.scope.incremental = true ∧ D.scope.changeSet ≠ [] ∧ b.file ∉ D.scope.changeSet) ∨
        ∃ c ∈ res.inlineComments, StructuralKey U (withDefaults job).tool c = priorKey U (seedRec U b).posted) := by
  have hcases : ∀ b : PriorInline, (b.tool ≠ (withDefaults job).tool ∨ b.externalID = [] ∨
      (D.scope.incremental = true ∧ D.scope.changeSet ≠ [] ∧ b.file ∉ D.scope.changeSet) ∨
      ∃ c ∈ res.inlineComments, StructuralKey U (withDefaults job).tool c = priorKey U (seedRec U b).posted) ↔
      isStale U (withDefaults job).tool (res.inlineComments.map (StructuralKey U (withDefaults job).tool))
        D.scope.changeSet D.scope.incremental (seedRec U b).posted = false := fun b => by
    rw [isStale_eq_false_iff,List.mem_map]
    rfl
  simp only [hcases]
  have ht := withDefaults_tool_ne job
  have hids : resolvedIDs (Run U d job ⟨host,some (NewFromPrior U key review),[]⟩).2.calls =
      if providerKey D.provider D.pr = key then
        ((review.inline.map fun a => (seedRec U a).posted).filter
          (isStale U (withDefaults job).tool
            (res.inlineComments.map (StructuralKey U (withDefaults job).tool)) D.scope.changeSet
            D.scope.incremental)).map PostedFinding.externalCommentID
      else [] := by
    rw [D.run_eq U _ hres,applyResult_resolved,priorFindings_seeded U ht,stalePriors,if_neg ht]
    split <;> simp [resolvedIDs]
  rw [hids]
  split
  · next hk =>
    simp only [hk,true_implies]
    have hmem : ∀ id : Bytes, id ∈ ((review.inline.map fun a => (seedRec U a).posted).filter
        (isStale U (withDefaults job).tool
          (res.inlineComments.map (StructuralKey U (withDefaults job).tool)) D.scope.changeSet
          D.scope.incremental)).map PostedFinding.externalCommentID ↔
        ∃ b ∈ review.inline, b.externalID = id ∧ isStale U (withDefaults job).tool
          (res.inlineComments.map (StructuralKey U (withDefaults job).tool)) D.scope.changeSet
          D.scope.incremental (seedRec U b).posted = true := by
      intro id
      rw [List.mem_map]
      constructor
      · rintro ⟨q,hq,rfl⟩
        obtain ⟨hq,hs⟩ := List.mem_filter.mp hq
        obtain ⟨b,hb,rfl⟩ := List.mem_map.mp hq
        exact ⟨b,hb,rfl,hs⟩
      · rintro ⟨b,hb,rfl,hs⟩
        exact ⟨_,List.mem_filter.mpr ⟨List.mem_map_of_mem hb,hs⟩,rfl⟩
    constructor
    · intro h a ha hr b hb hid
      by_contra hs
      exact h a ha hr ((hmem _).mpr ⟨b,hb,hid,by simpa using hs⟩)
    · intro h a ha hr hin
      obtain ⟨b,hb,hid,hs⟩ := (hmem _).mp hin
      rw [h a ha hr b hb hid] at hs
      exact Bool.false_ne_true hs
  · next hk => simp [hk]

section Settled

def droppedError : InlineComment where
  file := lit "mail.go"
  lineStart := 30
  lineEnd := 30
  body := lit "Error of Send is dropped"
  severity := SeverityWarn

/-- The finding as it is read back after its thread was resolved. -/
def droppedErrorThread : PriorInline where
  tool := lit "review"
  file := droppedError.file
  severity := droppedError.severity
  structuralKey := StructuralKey Tables.plain (lit "review") droppedError
  title := droppedError.body
  normalizedTitle := normalizeTitle Tables.plain droppedError.body
  externalID := lit "thread-3"
  resolved := true
  line := 30
  endLine := 30

/-- A reviewer that reports these comments. -/
def reporter (comments : List InlineComment) : Dispatcher Unit where
  vcsPool k := if k = KindGitHub then some (quietProvider examplePR) else none
  registry name := if name = lit "review" then
      some fun _ => .ok (some { inlineComments := comments })
    else none

def seededWorld : World Unit :=
  ⟨(),some (NewFromPrior Tables.plain exampleKey { inline := [droppedErrorThread] }),[]⟩

/-- A run that reports nothing resolves the thread a second time. -/
theorem settled_thread_resolved_again : droppedErrorThread.resolved = true ∧
    resolvedIDs (Run Tables.plain (reporter []) exampleJob seededWorld).2.calls =
      [droppedErrorThread.externalID] := by
  decide +kernel

def reporterDispatch (comments : List InlineComment) :
    Dispatched (reporter comments) exampleJob seededWorld where
  provider := quietProvider examplePR
  pr := examplePR
  tool _ := .ok (some { inlineComments := comments })
  files := []
  adapter := rfl
  registered := rfl
  fetched := rfl
  listed := rfl

theorem repeated_thread_left_alone : droppedErrorThread.externalID ∉
    resolvedIDs (Run Tables.plain (reporter [droppedError]) exampleJob seededWorld).2.calls := by
  let D := reporterDispatch [droppedError]
  have hres : D.tool D.input = .ok (some { inlineComments := [droppedError] }) := rfl
  refine (resolved_left_alone_iff Tables.plain D hres).mpr ?_ droppedErrorThread (by simp) rfl
  intro _ a _ _ b hb _
  obtain rfl := List.mem_singleton.mp hb
  decide +kernel

end Settled

end Orchestrator
