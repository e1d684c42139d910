import Cadoo.Orchestrator.Dispatcher
import Cadoo.Orchestrator.Suppression

/-! Which threads an incremental run may resolve. The gate on the change set is passed over when the
change set is empty, so a run at an unchanged head resolves as a full review does. -/
namespace Orchestrator
open Bytes Utf8 Vcs Findings

/-- The head has not moved since the last review, by its name or by an empty diff. -/
def HeadUnchanged {W : Type} (p : Provider W) (pr : PullRequest) (sha : Bytes) (host : W) : Prop :=
  sha ≠ [] ∧ (sha = pr.headSHA ∨ ∃ diffBetween, p.diffBetween = some diffBetween ∧
    diffBetween pr.repoFullName sha pr.headSHA host = .ok (some []))

lemma incrementalScope_of_headUnchanged {W : Type} {p : Provider W} {pr : PullRequest} {sha : Bytes}
    {host : W} (h : HeadUnchanged p pr sha host) :
    (incrementalScope p pr sha host).incremental = true ∧
      (incrementalScope p pr sha host).changeSet = [] := by
  obtain ⟨hne,rfl | ⟨diffBetween,hd,hincr⟩⟩ := h
  · simp [incrementalScope,hne]
  · unfold incrementalScope
    by_cases hs : sha = pr.headSHA
    · subst hs
      simp [hne]
    · simp [hne,hs,hd,hincr]

/-- Every prior of the tool that has a thread is reported again. -/
def AllRepeated (U : Tables) (tool : Bytes) (prior : List PostedFinding)
    (current : List InlineComment) : Prop :=
  ∀ q ∈ prior, q.tool = tool → q.externalCommentID ≠ [] →
    priorKey U q ∈ current.map (StructuralKey U tool)

variable (U : Tables) {W : Type}

lemma stalePriors_eq_nil_iff {tool : Bytes} {current : List InlineComment} {changeSet : List Bytes}
    {prior : List PostedFinding} (ht : tool ≠ []) (hc : changeSet = []) (incrementalRun : Bool) :
    stalePriors U tool current changeSet incrementalRun prior = [] ↔
      AllRepeated U tool prior current := by
  rw [List.eq_nil_iff_forall_not_mem]
  constructor
  · intro h q hq hqt hne
    by_contra hk
    exact h q ((mem_stalePriors U tool current changeSet incrementalRun).mpr
      ⟨ht,hq,hqt,hne,fun _ hne => absurd hc hne,hk⟩)
  · intro h q hq
    obtain ⟨-,hq,hqt,hne,-,hk⟩ := (mem_stalePriors U tool current changeSet incrementalRun).mp hq
    exact hk (h q hq hqt hne)

/-- The threads resolved are, one by one and in order, those of priors on changed files. -/
def OnlyTouched (prior : List PostedFinding) (changeSet : List Bytes) (calls : List Call) : Prop :=
  (resolvedIDs calls).Sublist
    ((prior.filter fun q => q.file ∈ changeSet).map PostedFinding.externalCommentID)

lemma resolved_resolveStalePriors (p : Provider W) (pr : PullRequest) (tool : Bytes)
    (prior : List PostedFinding) (current : List InlineComment) (changeSet : List Bytes)
    (incrementalRun : Bool) (w : World W) :
    resolvedIDs (resolveStalePriors U p pr tool prior current changeSet incrementalRun w).calls =
      resolvedIDs w.calls ++ (stalePriors U tool current changeSet incrementalRun prior).map
        PostedFinding.externalCommentID := by
  rw [resolveStalePriors_calls,resolvedIDs_append]
  simp [resolvedIDs,Call.resolved,Function.comp_def]

/-- Past the gate of a non-empty change set there are only priors on changed files. -/
lemma stalePriors_sublist {tool : Bytes} {current : List InlineComment} {changeSet : List Bytes}
    {prior : List PostedFinding} (hc : changeSet ≠ []) :
    (stalePriors U tool current changeSet true prior).Sublist
      (prior.filter fun q => q.file ∈ changeSet) := by
  unfold stalePriors
  split
  · exact List.nil_sublist _
  · apply List.monotone_filter_right
    intro q hq
    unfold isStale at hq
    split at hq
    · simp at hq
    · split at hq
      · simp at hq
      · next hgate => simpa [hc] using hgate

/-- The loop over the priors of an incremental run. -/
lemma onlyTouched_iff (p : Provider W) (pr : PullRequest) (tool : Bytes)
    (prior : List PostedFinding) (current : List InlineComment) (changeSet : List Bytes) (host : W)
    (posted : Option Store) :
    OnlyTouched prior changeSet
      (resolveStalePriors U p pr tool prior current changeSet true ⟨host,posted,[]⟩).calls ↔
    tool = [] ∨ changeSet ≠ [] ∨ AllRepeated U tool prior current := by
  have hids : resolvedIDs (resolveStalePriors U p pr tool prior current changeSet true
      ⟨host,posted,[]⟩).calls = (stalePriors U tool current changeSet true prior).map
        PostedFinding.externalCommentID := resolved_resolveStalePriors U p pr tool prior current
          changeSet true ⟨host,posted,[]⟩
  rw [OnlyTouched,hids]
  by_cases ht : tool = []
  · simp [ht,stalePriors]
  by_cases hc : changeSet = []
  · have hnil : stalePriors U tool current changeSet true prior = [] ↔
        AllRepeated U tool prior current := stalePriors_eq_nil_iff U ht hc true
    simp only [ht,hc,List.not_mem_nil,decide_false,List.filter_false,List.map_nil,List.sublist_nil,
      List.map_eq_nil_iff,ne_eq,not_true_eq_false,false_or] at hnil ⊢
    exact hnil
  · simp only [hc,ne_eq,not_false_eq_true,true_or,or_true,iff_true]
    exact (stalePriors_sublist U hc).map _

/-- An incremental run keeps to the changed files exactly when the change set is not empty or no
prior has gone missing, and at an unchanged head it resolves nothing exactly in the latter case. -/
theorem incremental_keeps_untouched_iff (p : Provider W) (pr : PullRequest) (tool : Bytes)
    (prior : List PostedFinding) (current : List InlineComment) (changeSet : List Bytes) (host : W)
    (posted : Option Store) :
    (OnlyTouched prior changeSet
      (resolveStalePriors U p pr tool prior current changeSet true ⟨host,posted,[]⟩).calls ↔
        tool = [] ∨ changeSet ≠ [] ∨ AllRepeated U tool prior current) ∧
    ∀ (d : Dispatcher W) (job : ToolJob) (w : World W) (D : Dispatched d job w) (res : Result),
      HeadUnchanged D.provider D.pr (lastReviewed w.posted) w.host →
      D.tool D.input = .ok (some res) →
      (resolvedIDs (Run U d job w).2.calls = resolvedIDs w.calls ↔
        AllRepeated U (withDefaults job).tool (priorFindings w.posted
          (providerKey D.provider D.pr) (withDefaults job).tool) res.inlineComments) := by
  refine ⟨onlyTouched_iff U p pr tool prior current changeSet host posted,?_⟩
  intro d job w D res hh hres
  obtain ⟨-,hcs⟩ := incrementalScope_of_headUnchanged hh
  rw [D.run_eq U (some res) hres,applyResult_resolved,List.append_right_eq_self,List.map_eq_nil_iff]
  exact stalePriors_eq_nil_iff U (withDefaults_tool_ne job) hcs _

section UnchangedHead

def reviewedSHA : Bytes := lit "0123456789abcdef0123456789abcdef01234567"
def reviewedPR : PullRequest := { examplePR with headSHA := reviewedSHA }

/-- One open finding, read back from the pull request. -/
def priorOpen : PriorReview where
  lastReviewedSHA := reviewedSHA
  inline := [{
    tool := lit "review"
    file := lit "db.go"
    severity := lit "warn"
    structuralKey := lit "5f1d0c2b9a8e7d64"
    title := lit "rows are not closed"
    normalizedTitle := lit "rows are not closed"
    externalID := lit "thread-1" }]

/-- A dispatcher with one adapter and one tool, which reports the given comments. -/
def oneTool (pr : PullRequest) (comments : List InlineComment) : Dispatcher Unit where
  vcsPool _ := some (quietProvider pr)
  registry _ := some fun _ => .ok (some { inlineComments := comments })

def reviewJob : ToolJob := { repoFullName := lit "acme/shop", prNumber := 7 }

def priorWorld : World Unit := ⟨(),some (NewFromPrior Tables.plain exampleKey priorOpen),[]⟩

def reviewedDispatch (comments : List InlineComment) :
    Dispatched (oneTool reviewedPR comments) reviewJob priorWorld where
  provider := quietProvider reviewedPR
  pr := reviewedPR
  tool _ := .ok (some { inlineComments := comments })
  files := []
  adapter := rfl
  registered := rfl
  fetched := rfl
  listed := rfl

lemma reviewed_headUnchanged :
    HeadUnchanged (quietProvider reviewedPR) reviewedPR (lastReviewed priorWorld.posted) () :=
  ⟨by decide,.inl rfl⟩

/-- At the reviewed head, with an empty change set, a tool that reports nothing has the thread of an
untouched file resolved. -/
theorem unchanged_head_resolves_thread :
    HeadUnchanged (quietProvider reviewedPR) reviewedPR (lastReviewed priorWorld.posted) () ∧
      ¬ resolvedIDs (Run Tables.plain (oneTool reviewedPR []) reviewJob priorWorld).2.calls = [] :=
  ⟨reviewed_headUnchanged,by decide +kernel⟩

/-- The same run, as the general theorem decides it. -/
theorem unchanged_head_decided :
    resolvedIDs (Run Tables.plain (oneTool reviewedPR []) reviewJob priorWorld).2.calls = [] ↔
      AllRepeated Tables.plain (lit "review") (priorFindings priorWorld.posted exampleKey
        (lit "review")) [] :=
  (incremental_keeps_untouched_iff Tables.plain (quietProvider reviewedPR) reviewedPR
    (lit "review") [] [] [] () none).2 _ _ _ (reviewedDispatch []) _ reviewed_headUnchanged rfl

end UnchangedHead

end Orchestrator
