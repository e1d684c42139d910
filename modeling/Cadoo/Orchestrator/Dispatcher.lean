import Cadoo.Orchestrator.Inline
import Cadoo.Orchestrator.Summary

/-! One dispatch of a tool on a pull request. The tool is any function of the input it is handed;
of that input the model keeps what the dispatcher reads from the provider and the store. -/
namespace Orchestrator
open Bytes Utf8 Vcs Findings

structure ToolJob where
  provider : Kind := []
  tool : Bytes := []
  repoFullName : Bytes
  prNumber : ℤ
  args : Bytes := []
  deriving DecidableEq

def exampleJob : ToolJob := { repoFullName := lit "acme/shop", prNumber := 7 }

structure PriorFinding where
  tool : Bytes
  file : Bytes
  lineStart : ℤ
  lineEnd : ℤ
  severity : Bytes
  title : Bytes
  deriving DecidableEq

structure Input where
  pr : PullRequest
  files : List FileChange
  args : Bytes
  repoKey : Bytes
  priorFindings : List PriorFinding
  incrementalFiles : List FileChange
  isIncrementalRun : Bool

structure Result where
  summary : Bytes := []
  inlineComments : List InlineComment := []
  checkRun : Option CheckRun := none
  checkRuns : List CheckRun := []
  editPRBody : Option Bytes := none

abbrev Tool := Input → Except Err (Option Result)

structure Dispatcher (W : Type) where
  vcsPool : Kind → Option (Provider W)
  registry : Bytes → Option Tool
  reportStatus : Bool := false

inductive RunError where
  | noAdapter (provider : Kind)
  | unknownTool (tool : Bytes)
  | fetchPR (err : Err)
  | listFiles (err : Err)
  | runTool (tool : Bytes) (err : Err)
  deriving DecidableEq

def CheckRunName : Bytes := lit "cadoo"

/-- What an incremental run is limited to. -/
structure Scope where
  incremental : Bool := false
  changeSet : List Bytes := []
  files : List FileChange := []

def fileSet (files : List FileChange) : List Bytes := files.map FileChange.path

/-- Full review without a reviewed commit, with an unknown one, or when the diff cannot be had; an
empty scope at the reviewed commit itself. -/
def incrementalScope {W : Type} (p : Provider W) (pr : PullRequest) (sha : Bytes) (host : W) :
    Scope :=
  if sha ≠ [] ∧ sha ≠ pr.headSHA then
    match p.diffBetween with
    | none => {}
    | some diffBetween =>
      match diffBetween pr.repoFullName sha pr.headSHA host with
      | .error _ => {}
      | .ok none => {}
      | .ok (some []) => { incremental := true }
      | .ok (some incr) => { incremental := true, changeSet := fileSet incr, files := incr }
  else if sha ≠ [] ∧ sha = pr.headSHA then { incremental := true }
  else {}

variable (U : Tables) {W : Type}

def applyPRBody (p : Provider W) (pr : PullRequest) (sec : Bytes) (w : World W) : World W :=
  if trimSpace sec = [] then w
  else
    let newBody := spliceCadooBody pr.body sec
    if newBody = pr.body then w else w.editPullRequestBody p pr newBody

def reportChecks (p : Provider W) (pr : PullRequest) (res : Result) (w : World W) : World W :=
  let w := match res.checkRun with
    | some run => w.upsertCheckRun p pr run
    | none => w
  res.checkRuns.foldl (fun w run => w.upsertCheckRun p pr run) w

def providerKey (p : Provider W) (pr : PullRequest) : PRKey := ⟨p.kind,pr.repoFullName,pr.number⟩

def applyResult (d : Dispatcher W) (p : Provider W) (pr : PullRequest) (tool : Bytes)
    (res : Option Result) (changeSet : List Bytes) (incrementalRun : Bool) (w : World W) : World W :=
  match res with
  | none => w
  | some res =>
    let key := providerKey p pr
    let w := if res.summary ≠ [] then postSummary p pr key tool res.summary w else w
    let w := postInline U p pr key tool res.inlineComments changeSet incrementalRun w
    let w := if d.reportStatus then reportChecks p pr res w else w
    match res.editPRBody with
    | some sec => applyPRBody p pr sec w
    | none => w

def failCheck (d : Dispatcher W) (p : Provider W) (pr : PullRequest) (err : Err) (w : World W) :
    World W :=
  if d.reportStatus then
    w.upsertCheckRun p pr ⟨CheckRunName,.failed,lit "Cadoo failed",err,[]⟩
  else w

def loadPriors (posted : Option Store) (key : PRKey) : List PriorFinding :=
  match posted with
  | none => []
  | some s =>
    match s.ListPostedFindings key with
    | .error _ => []
    | .ok prior => prior.map fun q => ⟨q.tool,q.file,q.lineStart,q.lineEnd,q.severity,q.title⟩

/-- The commit reviewed last, as the store has it. -/
def lastReviewed (posted : Option Store) : Bytes :=
  match posted with
  | none => []
  | some s => s.LastReviewedSHA

def toolInput (pr : PullRequest) (job : ToolJob) (files : List FileChange) (scope : Scope)
    (posted : Option Store) : Input where
  pr := pr
  files := files
  args := job.args
  repoKey := job.provider ++ lit ":" ++ pr.repoFullName
  priorFindings := loadPriors posted ⟨job.provider,pr.repoFullName,pr.number⟩
  incrementalFiles := scope.files
  isIncrementalRun := scope.incremental

/-- The tool's run and what is made of its result. -/
def runTool (d : Dispatcher W) (p : Provider W) (pr : PullRequest) (job : ToolJob) (tool : Tool)
    (files : List FileChange) (w : World W) : Option RunError × World W :=
  let scope := incrementalScope p pr (lastReviewed w.posted) w.host
  match tool (toolInput pr job files scope w.posted) with
  | .error err => (some (.runTool job.tool err),failCheck d p pr err w)
  | .ok res => (none,applyResult U d p pr job.tool res scope.changeSet scope.incremental w)

def withDefaults (job : ToolJob) : ToolJob :=
  let job := if job.tool = [] then { job with tool := lit "review" } else job
  if job.provider = [] then { job with provider := KindGitHub } else job

def Run (d : Dispatcher W) (job : ToolJob) (w : World W) : Option RunError × World W :=
  let job := withDefaults job
  match d.vcsPool job.provider with
  | none => (some (.noAdapter job.provider),w)
  | some p =>
    match d.registry job.tool with
    | none => (some (.unknownTool job.tool),w)
    | some tool =>
      match p.fetchPullRequest job.repoFullName job.prNumber w.host with
      | .error err => (some (.fetchPR err),w)
      | .ok pr =>
        match p.listChangedFiles pr w.host with
        | .error err => (some (.listFiles err),failCheck d p pr err w)
        | .ok files => runTool U d p pr job tool files w

/-- What a run is told as it goes along, by the host and by the store, which other runs change in between. -/
structure Answers where
  fetched : Except Err PullRequest
  listed : PullRequest → Except Err (List FileChange)
  scope : PullRequest → Scope
  posted : Option Store

/-- How a run ends, as far as its caller is told. -/
def outcome (d : Dispatcher W) (job : ToolJob) (a : Answers) : Option RunError :=
  let job := withDefaults job
  match d.vcsPool job.provider with
  | none => some (.noAdapter job.provider)
  | some _ =>
    match d.registry job.tool with
    | none => some (.unknownTool job.tool)
    | some tool =>
      match a.fetched with
      | .error err => some (.fetchPR err)
      | .ok pr =>
        match a.listed pr with
        | .error err => some (.listFiles err)
        | .ok files =>
          match tool (toolInput pr job files (a.scope pr) a.posted) with
          | .error err => some (.runTool job.tool err)
          | .ok _ => none

/-- What a run is told when nothing changes in between. -/
def Answers.at (p : Provider W) (job : ToolJob) (w : World W) : Answers where
  fetched := p.fetchPullRequest job.repoFullName job.prNumber w.host
  listed pr := p.listChangedFiles pr w.host
  scope pr := incrementalScope p pr (lastReviewed w.posted) w.host
  posted := w.posted

/-- What a run tells its caller follows from what it is told. -/
theorem Run_outcome (d : Dispatcher W) (job : ToolJob) (w : World W) {p : Provider W}
    (hp : d.vcsPool (withDefaults job).provider = some p) :
    (Run U d job w).1 = outcome d job (.at p (withDefaults job) w) := by
  rw [Run,outcome]
  dsimp only [Answers.at]
  rw [hp]
  dsimp only
  cases d.registry (withDefaults job).tool with
  | none => rfl
  | some tool =>
    dsimp only
    cases p.fetchPullRequest (withDefaults job).repoFullName (withDefaults job).prNumber w.host with
    | error err => rfl
    | ok pr =>
      dsimp only
      cases p.listChangedFiles pr w.host with
      | error err => rfl
      | ok files =>
        dsimp only [runTool]
        cases tool (toolInput pr (withDefaults job) files (incrementalScope p pr (lastReviewed w.posted) w.host)
          w.posted) with
        | error err => rfl
        | ok res => rfl

lemma withDefaults_tool (job : ToolJob) :
    (withDefaults job).tool = if job.tool = [] then lit "review" else job.tool := by
  unfold withDefaults
  dsimp only
  split <;> split <;> rfl

lemma withDefaults_tool_ne (job : ToolJob) : (withDefaults job).tool ≠ [] := by
  rw [withDefaults_tool]
  split
  · decide
  · next h => exact h

@[simp] lemma withDefaults_repoFullName (job : ToolJob) :
    (withDefaults job).repoFullName = job.repoFullName := by
  unfold withDefaults
  dsimp only
  split <;> split <;> rfl

@[simp] lemma withDefaults_prNumber (job : ToolJob) :
    (withDefaults job).prNumber = job.prNumber := by
  unfold withDefaults
  dsimp only
  split <;> split <;> rfl

/-- A dispatch that gets as far as its tool. -/
structure Dispatched (d : Dispatcher W) (job : ToolJob) (w : World W) where
  provider : Provider W
  pr : PullRequest
  tool : Tool
  files : List FileChange
  adapter : d.vcsPool (withDefaults job).provider = some provider
  registered : d.registry (withDefaults job).tool = some tool
  fetched : provider.fetchPullRequest job.repoFullName job.prNumber w.host = .ok pr
  listed : provider.listChangedFiles pr w.host = .ok files

namespace Dispatched
variable {d : Dispatcher W} {job : ToolJob} {w : World W} (D : Dispatched d job w)

def scope : Scope := incrementalScope D.provider D.pr (lastReviewed w.posted) w.host

/-- What the tool is handed. -/
def input : Input := toolInput D.pr (withDefaults job) D.files D.scope w.posted

theorem run_eq (res : Option Result) (h : D.tool D.input = .ok res) :
    Run U d job w = (none,applyResult U d D.provider D.pr (withDefaults job).tool res
      D.scope.changeSet D.scope.incremental w) := by
  rw [Run]
  simp only [D.adapter,D.registered,withDefaults_repoFullName,withDefaults_prNumber,D.fetched,D.listed]
  rw [runTool]
  change (match D.tool D.input with
    | .error err => _
    | .ok res => _) = _
  rw [h]
  rfl

end Dispatched

lemma reportChecks_calls (p : Provider W) (pr : PullRequest) (res : Result) (w : World W) :
    ∃ runs : List CheckRun, (reportChecks p pr res w).calls = w.calls ++ runs.map .upsertCheckRun := by
  have hfold : ∀ (runs : List CheckRun) (v : World W),
      (runs.foldl (fun w run => w.upsertCheckRun p pr run) v).calls =
        v.calls ++ runs.map .upsertCheckRun := by
    intro runs
    induction runs with
    | nil => simp
    | cons run runs ih =>
      intro v
      rw [List.foldl_cons,ih]
      simp
  unfold reportChecks
  dsimp only
  rw [hfold]
  split
  · next run _ => exact ⟨run :: res.checkRuns,by simp⟩
  · exact ⟨res.checkRuns,rfl⟩

lemma applyPRBody_calls (p : Provider W) (pr : PullRequest) (sec : Bytes) (w : World W) :
    ∃ bodies : List Bytes,
      (applyPRBody p pr sec w).calls = w.calls ++ bodies.map .editPullRequestBody := by
  unfold applyPRBody
  split
  · exact ⟨[],by simp⟩
  · dsimp only
    split
    · exact ⟨[],by simp⟩
    · exact ⟨[spliceCadooBody pr.body sec],by simp⟩

lemma priorFindings_postSummary (p : Provider W) (pr : PullRequest) (key key' : PRKey)
    (tool tool' body : Bytes) (w : World W) :
    priorFindings (postSummary p pr key tool body w).posted key' tool' =
      priorFindings w.posted key' tool' := by
  have h := postSummary_listPosted p pr key tool body w key'
  cases hw : w.posted with
  | none =>
    rw [hw] at h
    rw [Option.map_eq_none_iff.mp h]
  | some s =>
    rw [hw] at h
    obtain ⟨s',hs',hl⟩ := Option.map_eq_some_iff.mp h
    rw [hs',priorFindings,priorFindings,hl]

/-- The ids a dispatch resolves are those of the stale priors of its tool. -/
theorem applyResult_resolved (d : Dispatcher W) (p : Provider W) (pr : PullRequest) (tool : Bytes)
    (res : Result) (changeSet : List Bytes) (incrementalRun : Bool) (w : World W) :
    resolvedIDs (applyResult U d p pr tool (some res) changeSet incrementalRun w).calls =
      resolvedIDs w.calls ++ (stalePriors U tool res.inlineComments changeSet incrementalRun
        (priorFindings w.posted (providerKey p pr) tool)).map PostedFinding.externalCommentID := by
  have hchecks : ∀ runs : List CheckRun, resolvedIDs (runs.map .upsertCheckRun) = [] := by
    simp [resolvedIDs,Call.resolved]
  have hbodies : ∀ bodies : List Bytes, resolvedIDs (bodies.map .editPullRequestBody) = [] := by
    simp [resolvedIDs,Call.resolved]
  have hreport : ∀ v : World W, resolvedIDs (if d.reportStatus then reportChecks p pr res v
      else v).calls = resolvedIDs v.calls := by
    intro v
    split
    · obtain ⟨runs,hruns⟩ := reportChecks_calls p pr res v
      simp [hruns,hchecks]
    · rfl
  have hbody : ∀ v : World W, resolvedIDs (match res.editPRBody with
      | some sec => applyPRBody p pr sec v
      | none => v).calls = resolvedIDs v.calls := by
    intro v
    split
    · next sec _ =>
      obtain ⟨bodies,hb⟩ := applyPRBody_calls p pr sec v
      simp [hb,hbodies]
    · rfl
  unfold applyResult
  simp only
  rw [hbody,hreport,postInline_resolved]
  split
  · rw [priorFindings_postSummary]
    obtain ⟨cs,hcs,hall⟩ := postSummary_calls p pr (providerKey p pr) tool res.summary w
    have hnil : resolvedIDs cs = [] := by
      rw [resolvedIDs,List.filterMap_eq_nil_iff]
      intro c hc
      have := hall c hc
      cases c <;> simp_all [Call.onSummary,Call.resolved]
    simp [hcs,hnil]
  · rfl

end Orchestrator
