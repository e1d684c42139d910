import Cadoo.Vcs.Types

/-! What adapters may offer beyond the provider interface for the release documents. Every capability is
optional and answers out of the provider's state. -/
namespace Vcs

structure Commit where
  sha : Bytes
  message : Bytes
  author : Bytes
  deriving DecidableEq

structure MergedPR where
  number : ℤ
  title : Bytes
  author : Bytes
  labels : List Bytes := []
  mergeSHA : Bytes := []
  deriving DecidableEq

structure Release where
  id : ℤ
  tagName : Bytes
  body : Bytes
  deriving DecidableEq

structure FileWrite where
  path : Bytes
  content : Bytes
  deriving DecidableEq

/-- The commits, the merged requests and the tag before a release. -/
structure ReleaseRangeReader (W : Type) where
  listCommits : Bytes → Bytes → Bytes → W → Except Err (List Commit)
  listMergedPRs : Bytes → Bytes → Bytes → W → Except Err (List MergedPR)
  latestTagBefore : Bytes → Bytes → Bytes → W → Except Err Bytes

structure ReleasePublisher (W : Type) where
  getReleaseByTag : Bytes → Bytes → W → Except Err Release
  updateReleaseBody : Bytes → ℤ → Bytes → W → Option Err × W

structure BranchCommitter (W : Type) where
  upsertFile : Bytes → Bytes → Bytes → FileWrite → W → Option Err × W
  openOrUpdatePR : Bytes → Bytes → Bytes → Bytes → Bytes → W → Except Err ℤ × W

/-- A provider as the release documents see it. -/
structure ReleaseProvider (W : Type) where
  kind : Kind
  fetchFileFromRef : Option (Bytes → Bytes → Bytes → W → Except Err Bytes) := none
  rangeReader : Option (ReleaseRangeReader W) := none
  releasePublisher : Option (ReleasePublisher W) := none
  updateReleaseBodyByTag : Option (Bytes → Bytes → Bytes → W → Option Err × W) := none
  branchCommitter : Option (BranchCommitter W) := none

end Vcs
