import Cadoo.Orchestrator.PartialPost
import Cadoo.Orchestrator.Convergence
import Cadoo.Orchestrator.Identity
import Cadoo.Orchestrator.Lifecycle
import Cadoo.Orchestrator.Overview
import Cadoo.Orchestrator.StatelessOverview
import Cadoo.Orchestrator.Handover
import Cadoo.Orchestrator.ResolvedThreads
import Cadoo.Orchestrator.Splice
import Cadoo.Findings.Backends
import Cadoo.Findings.Persist
import Cadoo.Findings.Resolved
import Cadoo.ReleaseDocs.Disabled
import Cadoo.ApiDocs.Document
import Cadoo.Tools.Anchors
import Cadoo.Tools.IndexExact
import Cadoo.Tools.Review
import Cadoo.ContextEngine.Packing
import Cadoo.ContextEngine.Truncation
import Cadoo.Vcs.Tags
import Cadoo.ReleaseDocs.Grouping
import Cadoo.Findings.Unanchored
import Cadoo.Orchestrator.ReviewedSHA
import Cadoo.Vcs.ReadBack
import Cadoo.Tools.DiffCount
import Cadoo.Findings.Storable
import Cadoo.Kb.ChunkSize
import Cadoo.Orchestrator.PromptFence
import Cadoo.Tools.Suggestions
import Cadoo.ReleaseDocs.ReleaseBody
import Cadoo.ReleaseDocs.Pages
import Cadoo.Tools.LlmJson
import Cadoo.Kb.ChunkText
import Cadoo.Cli.Target
import Cadoo.Tools.Describe
import Cadoo.ApiDocs.Inline
import Cadoo.ApiDocs.RenderMarkdown
import Cadoo.Agent.Loop
import Cadoo.ReleaseDocs.Conventional
import Cadoo.Tools.ControlChars
import Cadoo.ReleaseDocs.Changelog
import Cadoo.IssueTrackers.Keys
import Cadoo.Kb.Ingest
import Cadoo.Jobs.Queue
import Cadoo.Jobs.Payload
import Cadoo.Webhook.Events
import Cadoo.Webhook.Process
import Cadoo.Tunnel.Agent
import Cadoo.ReleaseDocs.ChangelogRuns
import Cadoo.Analysis.Workspace
import Cadoo.Tools.Check
import Cadoo.Orchestrator.Linters
import Cadoo.Cli.Ci
