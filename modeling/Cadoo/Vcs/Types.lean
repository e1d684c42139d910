import Cadoo.Lib.Bytes

/-! The provider-agnostic surface every Git-host adapter implements, and the data the dispatcher
exchanges with it. A provider answers out of a state of its own, of any type. -/
namespace Vcs

abbrev Kind := Bytes
def KindGitHub : Kind := .lit "github"
def KindGitHubEnterprise : Kind := .lit "github_enterprise"
def KindGitLab : Kind := .lit "gitlab"

abbrev Severity := Bytes
def SeverityBlock : Severity := .lit "block"
def SeverityWarn : Severity := .lit "warn"
def SeverityNit : Severity := .lit "nit"

/-- The prefix both adapters put before a posted comment. -/
def severityPrefix (s : Severity) : Bytes :=
  if s = SeverityBlock then .lit "**[BLOCK]** "
  else if s = SeverityWarn then .lit "**[WARN]** "
  else if s = SeverityNit then .lit "_[nit]_ "
  else []

abbrev Err := Bytes

structure PullRequest where
  repoFullName : Bytes
  number : ℤ
  title : Bytes := []
  body : Bytes := []
  headSHA : Bytes := []
  deriving DecidableEq

structure FileChange where
  path : Bytes
  prevPath : Bytes := []
  status : Bytes := []
  patch : Bytes := []
  additions : ℕ := 0
  deletions : ℕ := 0
  isBinary : Bool := false
  deriving DecidableEq

/-- A comment anchored to a line range of a file. -/
structure InlineComment where
  file : Bytes
  lineStart : ℤ
  lineEnd : ℤ
  body : Bytes
  severity : Severity
  deriving DecidableEq

/-- A comment with the id its provider gave it, empty when the provider gives none. -/
structure PostedInlineRef where
  comment : InlineComment
  externalID : Bytes := []
  deriving DecidableEq

inductive CheckRunStatus where
  | queued | running | succeeded | failed | neutral
  deriving DecidableEq

structure CheckRun where
  name : Bytes
  status : CheckRunStatus
  title : Bytes
  summary : Bytes
  url : Bytes := []
  deriving DecidableEq

/-- One inline finding read back from a pull request. -/
structure PriorInline where
  tool : Bytes
  file : Bytes
  severity : Bytes
  structuralKey : Bytes
  title : Bytes
  normalizedTitle : Bytes
  externalID : Bytes := []
  resolved : Bool := false
  line : ℤ := 0
  endLine : ℤ := 0
  deriving DecidableEq

/-- What Cadoo left on a pull request before. -/
structure PriorReview where
  summaryCommentID : Bytes := []
  lastReviewedSHA : Bytes := []
  inline : List PriorInline := []
  deriving DecidableEq

/-- A provider over a state `W`. `diffBetween` is the optional capability; it answers `none` for a
commit the head does not descend from. -/
structure Provider (W : Type) where
  kind : Kind
  fetchPullRequest : Bytes → ℤ → W → Except Err PullRequest
  listChangedFiles : PullRequest → W → Except Err (List FileChange)
  postSummaryComment : PullRequest → Bytes → W → Except Err Bytes × W
  updateSummaryComment : PullRequest → Bytes → Bytes → W → Option Err × W
  postInlineComments : PullRequest → List InlineComment → W → (List PostedInlineRef × Option Err) × W
  resolveThread : PullRequest → Bytes → W → Option Err × W
  editPullRequestBody : PullRequest → Bytes → W → Option Err × W
  upsertCheckRun : PullRequest → CheckRun → W → Option Err × W
  diffBetween : Option (Bytes → Bytes → Bytes → W → Except Err (Option (List FileChange)))

end Vcs
