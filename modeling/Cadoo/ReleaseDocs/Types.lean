import Cadoo.Lib.GoMap
import Cadoo.Vcs.Release

/-! The release documents: the settings of a repository, what the generators make of a release, and the
writing calls made to publish it, each with the target it was made for. -/
namespace ReleaseDocs
open Bytes Vcs

inductive ArtifactKind where
  | changelog | releaseNotes | blog | apiDocs | diagrams
  deriving DecidableEq

def ArtifactKind.name : ArtifactKind → Bytes
  | changelog => lit "changelog"
  | releaseNotes => lit "release_notes"
  | blog => lit "blog"
  | apiDocs => lit "apidocs"
  | diagrams => lit "diagrams"

inductive PublishTarget where
  | releaseBody | changelogPR | pages
  deriving DecidableEq

inductive SemverBump where
  | major | minor | patch | none
  deriving DecidableEq

structure Artifact where
  kind : ArtifactKind
  content : Bytes
  filename : Bytes := []
  deriving DecidableEq

structure ArtifactConfig where
  enabled : Bool := false
  condition : Bytes := []
  preset : Bytes := []
  template : Bytes := []

structure ReleaseNotesConfig extends ArtifactConfig where
  tone : Bytes := []

structure APIDocsConfig extends ArtifactConfig where
  specPath : Bytes := []

structure DiagramsConfig extends ArtifactConfig where
  sequence : List Bytes := []
  dependency : List Bytes := []
  state : List Bytes := []
  flowchart : List Bytes := []
  classes : List Bytes := []

structure ReleaseArtifacts where
  changelog : ArtifactConfig := {}
  releaseNotes : ReleaseNotesConfig := {}
  blog : ArtifactConfig := {}
  apiDocs : APIDocsConfig := {}
  diagrams : DiagramsConfig := {}

structure ReleaseGrouping where
  source : Bytes := []
  sections : List Bytes := []
  labels : GoMap Bytes Bytes := ∅

structure PagesPublishTarget where
  enabled : Bool := false
  branch : Bytes := []
  dir : Bytes := []

/-- The publish switches of `.cadoo.yaml`. -/
structure ReleasePublish where
  releaseBody : Bool := false
  changelogPR : Bool := false
  pages : PagesPublishTarget := {}

/-- The `releaseDocs` block of `.cadoo.yaml`. -/
structure Config where
  enabled : Bool := false
  tagPattern : Bytes := []
  artifacts : ReleaseArtifacts := {}
  grouping : ReleaseGrouping := {}
  publish : ReleasePublish := {}

/-- Whether a target is switched on. -/
def ReleasePublish.enabled (p : ReleasePublish) : PublishTarget → Bool
  | .releaseBody => p.releaseBody
  | .changelogPR => p.changelogPR
  | .pages => p.pages.enabled

structure ReleaseJob where
  provider : Kind := []
  repo : Bytes
  org : Bytes := []
  fromRef : Bytes := []
  toRef : Bytes
  deriving DecidableEq

structure ChangeEntry where
  title : Bytes
  author : Bytes
  sha : Bytes := []
  prNumber : ℤ := 0
  deriving DecidableEq

structure ChangeSection where
  title : Bytes
  entries : List ChangeEntry
  deriving DecidableEq

abbrev GroupedModel := List ChangeSection

/-- The input of every generator and publisher. -/
structure ReleaseContext (W : Type) where
  repo : Bytes
  org : Bytes
  fromRef : Bytes
  toRef : Bytes
  bump : SemverBump
  commits : List Commit
  mergedPRs : List MergedPR
  config : Config
  provider : ReleaseProvider W
  groupedModel : GroupedModel

/-- A writing call of the capabilities. -/
inductive Write where
  | updateReleaseBody (repo : Bytes) (id : ℤ) (body : Bytes)
  | updateReleaseBodyByTag (repo tag body : Bytes)
  | upsertFile (repo branch message : Bytes) (file : FileWrite)
  | openOrUpdatePR (repo branch base title body : Bytes)
  deriving DecidableEq

/-- A line of the posted-state store. -/
structure Publication where
  org : Bytes
  provider : Kind
  repo : Bytes
  toTag : Bytes
  kind : ArtifactKind
  externalID : Bytes
  deriving DecidableEq

/-- What one run works on; `posted` is the optional store. -/
structure World (W : Type) where
  host : W
  writes : List (PublishTarget × Write) := []
  posted : Option (List Publication) := none

namespace World
variable {W : Type} (w : World W) (t : PublishTarget)

def log (c : Write) (host : W) : World W := { w with host := host, writes := w.writes ++ [(t,c)] }

/-- A call made for a target. -/
def issue {α : Type} (c : Write) (call : W → α × W) : α × World W :=
  ((call w.host).1,w.log t c (call w.host).2)

variable {w t}

lemma writes_of_issue {α : Type} {c : Write} {call : W → α × W} {a : α} {w' : World W}
    (h : w.issue t c call = (a,w')) : w'.writes = w.writes ++ [(t,c)] := by
  rw [← (Prod.mk.inj h).2,log]

end World

end ReleaseDocs
