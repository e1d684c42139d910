import Cadoo.ReleaseDocs.ChangeModel
import Cadoo.ReleaseDocs.Publishers

/-! One release-docs run: the settings are read from the release, the changes are collected, the generators
make the artifacts, and every publisher gets all of them. -/
namespace ReleaseDocs
open Bytes Vcs

inductive ContextError where
  | noRangeReader (kind : Kind)
  | listCommits (fromRef toRef : Bytes) (err : Err)
  | listMergedPRs (fromRef toRef : Bytes) (err : Err)
  deriving DecidableEq

inductive RunError where
  | noAdapter (provider : Kind)
  | buildContext (err : ContextError)
  | generator (kind : ArtifactKind) (err : Err)
  | publisher (target : PublishTarget) (err : PublishError)
  deriving DecidableEq

/-- A generator makes one artifact or several. -/
structure Generator (W : Type) where
  kind : ArtifactKind
  enabled : Config → SemverBump → Bool
  generate : ReleaseContext W → W → Except Err (List Artifact)

structure Publisher (W : Type) where
  target : PublishTarget
  publish : ReleaseContext W → List Artifact → World W → Option PublishError × World W

/-- The parser of `.cadoo.yaml` and the semantic-version library are parameters. -/
structure Dispatcher (W : Type) where
  vcsPool : Kind → Option (ReleaseProvider W)
  parse : Bytes → Except Err Config
  semver : Semver
  baseCfg : Config := {}
  generators : List (Generator W)
  publishers : List (Publisher W)

variable {W : Type}

def DefaultPublishers : List (Publisher W) :=
  [⟨.releaseBody,ReleaseBody.Publish⟩,⟨.changelogPR,ChangelogPR.Publish⟩,⟨.pages,Pages.Publish⟩]

/-- The commit range starts at the tag before, when the job names none. -/
def resolveFromRef (rr : ReleaseRangeReader W) (job : ReleaseJob) (cfg : Config) (host : W) : Bytes :=
  if job.fromRef ≠ [] then job.fromRef
  else
    let tagPattern := if cfg.tagPattern = [] then lit "v*" else cfg.tagPattern
    match rr.latestTagBefore job.repo job.toRef tagPattern host with
    | .error _ => []
    | .ok resolved => resolved

def BuildContext (V : Semver) (p : ReleaseProvider W) (job : ReleaseJob) (cfg : Config) (host : W) :
    Except ContextError (ReleaseContext W) :=
  match p.rangeReader with
  | none => .error (.noRangeReader p.kind)
  | some rr =>
    let fromRef := resolveFromRef rr job cfg host
    if fromRef = [] then
      .ok ⟨job.repo,job.org,[],job.toRef,.major,[],[],cfg,p,BuildGroupedModel [] [] cfg⟩
    else
      match rr.listCommits job.repo fromRef job.toRef host with
      | .error err => .error (.listCommits fromRef job.toRef err)
      | .ok commits =>
        match rr.listMergedPRs job.repo fromRef job.toRef host with
        | .error err => .error (.listMergedPRs fromRef job.toRef err)
        | .ok prs =>
          .ok ⟨job.repo,job.org,fromRef,job.toRef,ComputeBump V fromRef job.toRef,commits,prs,cfg,p,
            BuildGroupedModel commits prs cfg⟩

def ReleaseJob.withDefaults (job : ReleaseJob) : ReleaseJob :=
  { job with provider := if job.provider = [] then KindGitHub else job.provider }

/-- The enabled generators, in order. -/
def runGenerators (cfg : Config) (rc : ReleaseContext W) (host : W) :
    List (Generator W) → Except RunError (List Artifact)
  | [] => .ok []
  | gen :: gens =>
    if gen.enabled cfg rc.bump = false then runGenerators cfg rc host gens
    else
      match gen.generate rc host with
      | .error err => .error (.generator gen.kind err)
      | .ok arts => (runGenerators cfg rc host gens).map (arts ++ ·)

/-- The publishers, in order, up to the first that fails. -/
def runPublishers (rc : ReleaseContext W) (arts : List Artifact) :
    List (Publisher W) → World W → Option RunError × World W
  | [],w => (none,w)
  | pub :: pubs,w =>
    match pub.publish rc arts w with
    | (some err,w) => (some (.publisher pub.target err),w)
    | (none,w) => runPublishers rc arts pubs w

/-- One record for each artifact, when there is a store. -/
def recordPosted (job : ReleaseJob) (arts : List Artifact) (w : World W) : World W :=
  { w with posted := w.posted.map (· ++ arts.map fun a =>
      ⟨job.org,job.provider,job.repo,job.toRef,a.kind,job.toRef⟩) }

namespace Dispatcher
variable (d : Dispatcher W) (job : ReleaseJob)

/-- The settings at the release, or the base settings when they cannot be had. -/
def loadCfg (p : ReleaseProvider W) (job : ReleaseJob) (host : W) : Config :=
  match p.fetchFileFromRef with
  | none => d.baseCfg
  | some fetch =>
    if job.toRef = [] then d.baseCfg
    else
      match fetch job.repo job.toRef (lit ".cadoo.yaml") host with
      | .error _ => d.baseCfg
      | .ok raw =>
        match d.parse raw with
        | .error _ => d.baseCfg
        | .ok cfg => cfg

/-- What the publishers are handed; without an error, there is nothing to publish. -/
def prepare (host : W) : Except (Option RunError) (ReleaseContext W × List Artifact) :=
  match d.vcsPool job.provider with
  | none => .error (some (.noAdapter job.provider))
  | some p =>
    let cfg := d.loadCfg p job host
    if cfg.enabled = false then .error none
    else
      match BuildContext d.semver p job cfg host with
      | .error err => .error (some (.buildContext err))
      | .ok rc =>
        match runGenerators cfg rc host d.generators with
        | .error err => .error (some err)
        | .ok arts => .ok (rc,arts)

def Run (w : World W) : Option RunError × World W :=
  let job := job.withDefaults
  match d.prepare job w.host with
  | .error err => (err,w)
  | .ok (rc,arts) =>
    match runPublishers rc arts d.publishers w with
    | (some err,w) => (some err,w)
    | (none,w) => (none,recordPosted job arts w)

end Dispatcher

lemma buildContext_config {V : Semver} {p : ReleaseProvider W} {job : ReleaseJob} {cfg : Config}
    {host : W} {rc : ReleaseContext W} (h : BuildContext V p job cfg host = .ok rc) : rc.config = cfg := by
  rw [BuildContext] at h
  split at h
  · cases h
  · dsimp only at h
    split at h
    · cases h
      rfl
    · split at h
      · cases h
      · split at h
        · cases h
        · cases h
          rfl

namespace Dispatcher
variable {d : Dispatcher W} {job : ReleaseJob} {host : W} {rc : ReleaseContext W} {arts : List Artifact}

/-- A run that gets to its publishers goes by the settings of the release. -/
lemma prepare_ok (h : d.prepare job host = .ok (rc,arts)) :
    ∃ p, d.vcsPool job.provider = some p ∧ rc.config = d.loadCfg p job host := by
  rw [prepare] at h
  split at h
  · cases h
  · next p hp =>
    dsimp only at h
    split at h
    · cases h
    · split at h
      · cases h
      · next rc' hrc =>
        split at h
        · cases h
        · cases h
          exact ⟨p,hp,buildContext_config hrc⟩

end Dispatcher

end ReleaseDocs
