import Cadoo.Cli.Target
import Cadoo.Lib.Workers
import Cadoo.Orchestrator.Dispatcher

/-! A one-shot run in a pipeline: all that can be wrong with the call is told before the first tool starts, the tools
run side by side, and the exit code tells how they went. -/
namespace Cli
open Bytes Vcs Orchestrator

/-- What a run reads of its flags and its environment; `llmURL` has its fallback already. -/
structure Call where
  targetURL : Bytes
  tools : Bytes
  llmURL : Bytes
  gitLabToken : Bytes
  gitHubToken : Bytes
  /-- The error of the repository's settings, if they cannot be read. -/
  config : Option Err

def splitCSV (s : Bytes) : List Bytes := ((s.splitOn 44).map Utf8.trimSpace).filter (· ≠ [])

/-- The environment's token and the adapter's own checks; `client` makes the adapter. -/
def buildProvider {W : Type} (client : CiTarget → Except Err (Provider W)) (c : Call) (target : CiTarget) :
    Except Err (Provider W) :=
  if target.Provider = KindGitLab then
    if c.gitLabToken = [] then .error (lit "GITLAB_TOKEN env is required for GitLab MRs") else client target
  else if target.Provider = KindGitHub ∨ target.Provider = KindGitHubEnterprise then
    if c.gitHubToken = [] then .error (lit "GITHUB_TOKEN env is required for GitHub PRs") else client target
  else .error (lit "unsupported provider")

def toolJob (target : CiTarget) (name : Bytes) : ToolJob where
  provider := target.Provider
  tool := name
  repoFullName := target.ProjectPath
  prNumber := target.Number

/-- What a call comes to: an exit at once, or jobs for the dispatcher. -/
inductive Plan (W : Type) where
  | exit (code : ℕ)
  | dispatch (target : CiTarget) (provider : Provider W) (tools : List Bytes)

section Source
variable {W : Type} (literal : Bytes → Option Bytes) (client : CiTarget → Except Err (Provider W))
variable (registry : Bytes → Option Tool)

def plan (c : Call) : Plan W :=
  if c.targetURL = [] then .exit 2
  else
    match parseTargetURL literal c.targetURL with
    | .error _ => .exit 2
    | .ok target =>
      match buildProvider client c target with
      | .error _ => .exit 2
      | .ok provider =>
        if c.llmURL = [] then .exit 2
        else if c.config.isSome then .exit 1
        else if splitCSV c.tools = [] then .exit 2
        else if (splitCSV c.tools).all fun name => (registry name).isSome then
          .dispatch target provider (splitCSV c.tools)
        else .exit 2

/-- The dispatcher of such a run. -/
def dispatcher (target : CiTarget) (p : Provider W) : Dispatcher W where
  vcsPool := fun k => if k = target.Provider then some p else none
  registry := registry

/-- A job, and how its run has ended. -/
abbrev Ended := ToolJob × Option RunError

/-- The run of the dispatcher for one entry of the list of tools. -/
def runTool (target : CiTarget) (p : Provider W) (name : Bytes) (a : Answers) : Ended :=
  (toolJob target name,outcome (dispatcher registry target p) (toolJob target name) a)

/-- A run that makes the call fail: one with an error, unless the model just had nothing to say. -/
def failure (emptyCompletion : Err → Bool) : Option RunError → Option RunError
  | some (.runTool tool err) => if emptyCompletion err then none else some (.runTool tool err)
  | r => r

/-- The exit code and the runs there have been, the entries of the list ending in any order; the first failure is
kept under a lock. -/
def ciCmd (emptyCompletion : Err → Bool) (c : Call) (es : List (ℕ × Answers)) : Option (ℕ × List Ended) :=
  match plan literal client registry c with
  | .exit code => if es = [] then some (code,[]) else none
  | .dispatch target p tools =>
    let ended := fun i a => (tools[i]?).map fun name => runTool registry target p name a
    match Steps.run (Workers.step fun i a first => first.or ((ended i a).bind fun r => failure emptyCompletion r.2))
        (Workers.start tools.length none) es with
    | some q =>
      if q.running = [] then some (if q.shared.isSome then 1 else 0,es.filterMap fun e => ended e.1 e.2) else none
    | none => none

end Source

section Plan
variable {W : Type} {literal : Bytes → Option Bytes} {client : CiTarget → Except Err (Provider W)}
variable {registry : Bytes → Option Tool}

lemma plan_dispatch {c : Call} {target : CiTarget} {p : Provider W} {tools : List Bytes}
    (h : plan literal client registry c = .dispatch target p tools) :
    parseTargetURL literal c.targetURL = .ok target ∧ tools = splitCSV c.tools ∧ tools ≠ [] ∧
      ∀ name ∈ tools, (registry name).isSome = true := by
  rw [plan] at h
  split at h
  case isTrue => cases h
  split at h
  · cases h
  next hparse =>
  split at h
  · cases h
  iterate 3
    split at h
    case isTrue => cases h
  next hne =>
  split at h
  · next hknown =>
    obtain ⟨rfl,rfl,rfl⟩ := Plan.dispatch.inj h
    exact ⟨hparse,rfl,hne,List.all_eq_true.mp hknown⟩
  · cases h

lemma plan_exit {c : Call} {code : ℕ} (h : plan literal client registry c = .exit code) : code = 1 ∨ code = 2 := by
  rw [plan] at h
  split at h
  · exact .inr (Plan.exit.inj h).symm
  · split at h
    · exact .inr (Plan.exit.inj h).symm
    · repeat' split at h
      all_goals first | exact .inr (Plan.exit.inj h).symm | exact .inl (Plan.exit.inj h).symm | cases h

/-- An address that is understood names one of the three kinds of host. -/
lemma parseTargetURL_provider {raw : Bytes} {target : CiTarget} (h : parseTargetURL literal raw = .ok target) :
    target.Provider = KindGitLab ∨ target.Provider = KindGitHubEnterprise ∨ target.Provider = KindGitHub := by
  rw [parseTargetURL] at h
  split at h
  · cases h
  split at h
  · cases h
  rw [targetAt] at h
  split at h
  · split at h
    · split at h
      · cases h
      · exact .inl (by rw [← Except.ok.inj h])
    · cases h
  · split at h
    · split at h
      · split at h
        · cases h
        · split at h
          · exact .inr (.inl (by rw [← Except.ok.inj h]))
          · exact .inr (.inr (by rw [← Except.ok.inj h]))
      · cases h
    · cases h

/-- The run for an entry of the list finds its adapter and its own tool. -/
lemma outcome_configured {raw name : Bytes} {target : CiTarget} (htarget : parseTargetURL literal raw = .ok target)
    (hname : name ≠ []) (hknown : (registry name).isSome = true) (p : Provider W) (a : Answers) :
    (∀ k, outcome (dispatcher registry target p) (toolJob target name) a ≠ some (.noAdapter k)) ∧
      (∀ n, outcome (dispatcher registry target p) (toolJob target name) a ≠ some (.unknownTool n)) ∧
      ∀ n err, outcome (dispatcher registry target p) (toolJob target name) a = some (.runTool n err) → n = name := by
  have hprovider : target.Provider ≠ [] := by
    obtain h | h | h := parseTargetURL_provider htarget <;> rw [h] <;> decide
  have hdefaults : withDefaults (toolJob target name) = toolJob target name := by
    rw [withDefaults,if_neg (show (toolJob target name).tool ≠ [] from hname)]
    exact if_neg hprovider
  obtain ⟨tool,htool⟩ := Option.isSome_iff_exists.mp hknown
  have hpool : (dispatcher registry target p).vcsPool (toolJob target name).provider = some p := if_pos rfl
  have hregistry : (dispatcher registry target p).registry (toolJob target name).tool = some tool := htool
  rw [outcome,hdefaults]
  simp only [hpool,hregistry]
  cases a.fetched with
  | error err => simp
  | ok pr =>
    dsimp only
    cases a.listed pr with
    | error err => simp
    | ok files =>
      dsimp only
      cases tool (toolInput pr (toolJob target name) files (a.scope pr) a.posted) with
      | error err => simp [toolJob]
      | ok res => simp

end Plan

section Exit
variable {W : Type} {literal : Bytes → Option Bytes} {client : CiTarget → Except Err (Provider W)}
variable {registry : Bytes → Option Tool} {emptyCompletion : Err → Bool} {c : Call}

/-- Every tool asked for is known, each entry of the list was run once, and all went well or had nothing to say. -/
structure AllWell (literal : Bytes → Option Bytes) (registry : Bytes → Option Tool) (emptyCompletion : Err → Bool)
    (c : Call) (runs : List Ended) : Prop where
  asked : splitCSV c.tools ≠ []
  known : ∀ name ∈ splitCSV c.tools, (registry name).isSome = true
  once : ∃ target, parseTargetURL literal c.targetURL = .ok target ∧
    (runs.map Prod.fst).Perm ((splitCSV c.tools).map (toolJob target))
  well : ∀ r ∈ runs, failure emptyCompletion r.2 = none

/-- The runs of entries that have all ended are one for each entry. -/
lemma ended_perm (registry : Bytes → Option Tool) (target : CiTarget) (p : Provider W) {tools : List Bytes}
    {es : List (ℕ × Answers)} (h : (es.map Prod.fst).Perm (List.range tools.length)) :
    ((es.filterMap fun e => (tools[e.1]?).map fun name => runTool registry target p name e.2).map Prod.fst).Perm
      (tools.map (toolJob target)) := by
  have hjobs : (es.filterMap fun e => (tools[e.1]?).map fun name => runTool registry target p name e.2).map Prod.fst =
      (es.map Prod.fst).filterMap fun i => (tools[i]?).map (toolJob target) := by
    rw [List.map_filterMap,List.filterMap_map]
    refine List.filterMap_congr fun e _ => ?_
    rw [Option.map_map]
    rfl
  have hall : (List.range tools.length).filterMap (fun i => (tools[i]?).map (toolJob target)) =
      tools.map (toolJob target) := by
    calc (List.range tools.length).filterMap (fun i => (tools[i]?).map (toolJob target))
        = ((List.range tools.length).map fun i => tools[i]?).filterMap (Option.map (toolJob target)) :=
          by rw [List.filterMap_map]; rfl
      _ = (tools.map some).filterMap (Option.map (toolJob target)) := by rw [Workers.range_getElem?]
      _ = tools.filterMap (fun name => some (toolJob target name)) := List.filterMap_map
      _ = tools.map (toolJob target) := by rw [List.filterMap_eq_map']
  rw [hjobs,← hall]
  exact h.filterMap _

end Exit

section Example

def exampleCall : Call where
  targetURL := lit "https://gitlab.com/acme/shop/-/merge_requests/7"
  tools := lit "describe, review,,improve"
  llmURL := lit "http://llm"
  gitLabToken := lit "hush"
  gitHubToken := []
  config := none

/-- The last tool has nothing to say. -/
def exampleRegistry (name : Bytes) : Option Tool :=
  if name ∈ [lit "describe",lit "review"] then some fun _ => .ok none
  else if name = lit "improve" then some fun _ => .error (lit "empty completion")
  else none

def emptyHost : Provider Unit where
  kind := KindGitLab
  fetchPullRequest _ _ _ := .ok examplePR
  listChangedFiles _ _ := .ok []
  postSummaryComment _ _ _ := (.ok (lit "1"),())
  updateSummaryComment _ _ _ _ := (none,())
  postInlineComments _ _ _ := (([],none),())
  resolveThread _ _ _ := (none,())
  editPullRequestBody _ _ _ := (none,())
  upsertCheckRun _ _ _ := (none,())
  diffBetween := none

def exampleTarget : CiTarget where
  Provider := KindGitLab
  BaseURL := lit "https://gitlab.com"
  APIBaseURL := lit "https://gitlab.com/api/v4"
  ProjectPath := lit "acme/shop"
  Number := 7

/-- The last tool ends second. -/
def exampleEnds : List (ℕ × Answers) :=
  [1,2,0].map fun i => (i,.at emptyHost (toolJob exampleTarget []) ⟨(),none,[]⟩)

def exampleRuns : List Ended :=
  [(toolJob exampleTarget (lit "review"),none),
    (toolJob exampleTarget (lit "improve"),some (.runTool (lit "improve") (lit "empty completion"))),
    (toolJob exampleTarget (lit "describe"),none)]

end Example

end Cli
