import Cadoo.Findings.Store

/-! What one dispatch works on: the provider's side, the posted-state store, and the log of the
writing calls made to the provider. -/
namespace Orchestrator
open Vcs Findings

/-- A writing call of the provider interface. -/
inductive Call where
  | postSummaryComment (body : Bytes)
  | updateSummaryComment (id body : Bytes)
  | postInlineComments (comments : List InlineComment)
  | resolveThread (threadID : Bytes)
  | editPullRequestBody (body : Bytes)
  | upsertCheckRun (run : CheckRun)
  deriving DecidableEq

structure World (W : Type) where
  host : W
  posted : Option Store := none
  calls : List Call := []

/-- A dispatch on a fresh log over an in-memory store. -/
def World.ofMemory {W : Type} (host : W) (m : MemoryStore) : World W :=
  { host := host, posted := some { mem := some m } }

def exampleKey : PRKey := ⟨KindGitHub,.lit "acme/shop",7⟩
def examplePR : PullRequest := { repoFullName := .lit "acme/shop", number := 7 }

/-- A provider that accepts everything, remembers nothing and hands out no ids. -/
def quietProvider (pr : PullRequest) : Provider Unit where
  kind := KindGitHub
  fetchPullRequest _ _ _ := .ok pr
  listChangedFiles _ _ := .ok []
  postSummaryComment _ _ _ := (.ok [],())
  updateSummaryComment _ _ _ _ := (none,())
  postInlineComments _ comments _ := ((comments.map fun c => ⟨c,[]⟩,none),())
  resolveThread _ _ _ := (none,())
  editPullRequestBody _ _ _ := (none,())
  upsertCheckRun _ _ _ := (none,())
  diffBetween := none

namespace World
variable {W : Type} (p : Provider W) (pr : PullRequest) (w : World W)

def log (c : Call) (host : W) : World W := { w with host := host, calls := w.calls ++ [c] }

def postSummaryComment (body : Bytes) : Except Err Bytes × World W :=
  let (res,host) := p.postSummaryComment pr body w.host
  (res,w.log (.postSummaryComment body) host)

def updateSummaryComment (id body : Bytes) : Option Err × World W :=
  let (err,host) := p.updateSummaryComment pr id body w.host
  (err,w.log (.updateSummaryComment id body) host)

def postInlineComments (comments : List InlineComment) : List PostedInlineRef × World W :=
  let ((refs,_),host) := p.postInlineComments pr comments w.host
  (refs,w.log (.postInlineComments comments) host)

def resolveThread (threadID : Bytes) : World W :=
  w.log (.resolveThread threadID) (p.resolveThread pr threadID w.host).2

def editPullRequestBody (body : Bytes) : World W :=
  w.log (.editPullRequestBody body) (p.editPullRequestBody pr body w.host).2

def upsertCheckRun (run : CheckRun) : World W :=
  w.log (.upsertCheckRun run) (p.upsertCheckRun pr run w.host).2

@[simp] lemma postSummaryComment_posted (body : Bytes) :
    (w.postSummaryComment p pr body).2.posted = w.posted := rfl

@[simp] lemma postSummaryComment_calls (body : Bytes) :
    (w.postSummaryComment p pr body).2.calls = w.calls ++ [.postSummaryComment body] := rfl

@[simp] lemma updateSummaryComment_posted (id body : Bytes) :
    (w.updateSummaryComment p pr id body).2.posted = w.posted := rfl

@[simp] lemma updateSummaryComment_calls (id body : Bytes) :
    (w.updateSummaryComment p pr id body).2.calls = w.calls ++ [.updateSummaryComment id body] := rfl

@[simp] lemma postInlineComments_posted (comments : List InlineComment) :
    (w.postInlineComments p pr comments).2.posted = w.posted := rfl

@[simp] lemma postInlineComments_calls (comments : List InlineComment) :
    (w.postInlineComments p pr comments).2.calls = w.calls ++ [.postInlineComments comments] := rfl

@[simp] lemma resolveThread_posted (threadID : Bytes) :
    (w.resolveThread p pr threadID).posted = w.posted := rfl

@[simp] lemma resolveThread_calls (threadID : Bytes) :
    (w.resolveThread p pr threadID).calls = w.calls ++ [.resolveThread threadID] := rfl

@[simp] lemma editPullRequestBody_calls (body : Bytes) :
    (w.editPullRequestBody p pr body).calls = w.calls ++ [.editPullRequestBody body] := rfl

@[simp] lemma upsertCheckRun_calls (run : CheckRun) :
    (w.upsertCheckRun p pr run).calls = w.calls ++ [.upsertCheckRun run] := rfl

end World

/-- Whether a call writes a summary comment. -/
def Call.onSummary : Call → Bool
  | postSummaryComment _ => true
  | updateSummaryComment _ _ => true
  | _ => false

/-- The thread a call resolves. -/
def Call.resolved : Call → Option Bytes
  | resolveThread threadID => some threadID
  | _ => none

/-- The ids passed to `ResolveThread`, in order. -/
def resolvedIDs (calls : List Call) : List Bytes := calls.filterMap Call.resolved

/-- The comments passed to `PostInlineComments`. -/
def Call.sent : Call → List InlineComment
  | postInlineComments comments => comments
  | _ => []

def sentComments (calls : List Call) : List InlineComment := calls.flatMap Call.sent

@[simp] lemma resolvedIDs_append (xs ys : List Call) :
    resolvedIDs (xs ++ ys) = resolvedIDs xs ++ resolvedIDs ys := List.filterMap_append

@[simp] lemma sentComments_append (xs ys : List Call) :
    sentComments (xs ++ ys) = sentComments xs ++ sentComments ys := List.flatMap_append

end Orchestrator
