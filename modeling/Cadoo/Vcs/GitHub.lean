import Cadoo.Lib.Utf8
import Cadoo.Vcs.Marker
import Cadoo.Vcs.Types

/-! The GitHub adapter: one review for all inline comments of a run, and the paged read-back of what
Cadoo left on a pull request. -/
namespace GitHub
open Bytes Utf8 Vcs

def formatSeverity : Severity → Bytes := severityPrefix

def splitRepo (full : Bytes) : Option (Bytes × Bytes) :=
  match cut full (lit "/") with
  | some (owner,name) => if owner = [] ∨ name = [] then none else some (owner,name)
  | none => none

structure DraftReviewComment where
  path : Bytes
  body : Bytes
  side : Bytes := lit "RIGHT"
  line : ℤ
  startLine : Option ℤ := none
  startSide : Option Bytes := none
  deriving DecidableEq

/-- A comment as part of a review. Without a line it falls back to line 1. -/
def draft (c : InlineComment) : DraftReviewComment :=
  let body := formatSeverity c.severity ++ c.body
  if 0 < c.lineStart ∧ c.lineStart < c.lineEnd then {
    path := c.file
    body := body
    line := c.lineEnd
    startLine := some c.lineStart
    startSide := some (lit "RIGHT") }
  else if 0 < c.lineStart then { path := c.file, body := body, line := c.lineStart }
  else { path := c.file, body := body, line := 1 }

def invalidRepo : Err := lit "invalid repo"

/-- One review with every comment; its answer carries no ids of the single comments. -/
def PostInlineComments {W : Type}
    (createReview : Bytes → Bytes → ℤ → List DraftReviewComment → W → Option Err × W)
    (pr : PullRequest) (comments : List InlineComment) (w : W) :
    (List PostedInlineRef × Option Err) × W :=
  if comments = [] then (([],none),w)
  else
    match splitRepo pr.repoFullName with
    | none => (([],some invalidRepo),w)
    | some (owner,name) =>
      match createReview owner name pr.number (comments.map draft) w with
      | (some err,w) => (([],some err),w)
      | (none,w) => ((comments.map fun c => ⟨c,[]⟩,none),w)

/-- The adapter's posting of inline comments, put in the place of another provider's. -/
def adapter {W : Type}
    (createReview : Bytes → Bytes → ℤ → List DraftReviewComment → W → Option Err × W)
    (other : Provider W) : Provider W :=
  { other with kind := KindGitHub, postInlineComments := PostInlineComments createReview }

structure IssueComment where
  databaseID : ℤ
  body : Bytes
  deriving DecidableEq

structure ThreadComment where
  path : Bytes
  body : Bytes
  deriving DecidableEq

/-- A review thread with its first comment; `line` is null on deleted lines. -/
structure ReviewThread where
  id : Bytes
  isResolved : Bool
  line : Option ℤ
  comments : List ThreadComment
  deriving DecidableEq

structure Page (α : Type) where
  nodes : List α
  hasNextPage : Bool
  endCursor : Bytes

/-- The answer to one query: a page of either connection. -/
structure Snapshot where
  comments : Page IssueComment
  reviewThreads : Page ReviewThread

def scanComment (out : PriorReview) (c : IssueComment) : PriorReview :=
  if out.summaryCommentID = [] ∧ contains c.body SummaryWrapperBegin then
    { out with
      summaryCommentID := intDecimal c.databaseID
      lastReviewedSHA :=
        if out.lastReviewedSHA = [] then ParseReviewedSHA c.body else out.lastReviewedSHA }
  else out

/-- The finding a thread carries, when its first comment has a marker. -/
def readThread (th : ReviewThread) : Option PriorInline :=
  match th.comments with
  | [] => none
  | first :: _ =>
    match ParseInlineMarker first.body with
    | none => none
    | some (md,stripped) =>
      let orig := trimPrefix stripped (formatSeverity md.sev)
      let anchorLine := th.line.getD 0
      some {
        tool := md.tool
        file := first.path
        severity := md.sev
        structuralKey := md.sk
        title := FirstLine (trimSpace orig)
        normalizedTitle := md.nt
        externalID := th.id
        resolved := th.isResolved
        line := anchorLine
        endLine := anchorLine }

def scanThread (out : PriorReview) (th : ReviewThread) : PriorReview :=
  match readThread th with
  | some found => { out with inline := out.inline ++ [found] }
  | none => out

/-- The variables of the read-back loop. -/
structure ReadState where
  out : PriorReview := {}
  tc : Bytes := []
  rc : Bytes := []
  doneC : Bool := false
  doneT : Bool := false

def readComments (s : ReadState) (page : Page IssueComment) : ReadState :=
  if s.doneC then s
  else
    let s := { s with out := page.nodes.foldl scanComment s.out }
    if page.hasNextPage then { s with tc := page.endCursor } else { s with doneC := true }

def readThreads (s : ReadState) (page : Page ReviewThread) : ReadState :=
  if s.doneT then s
  else
    let s := { s with out := page.nodes.foldl scanThread s.out }
    if page.hasNextPage then { s with rc := page.endCursor } else { s with doneT := true }

/-- The loop over the pages. It ends when both connections are exhausted; `none` stands for a loop
that has not ended within the given number of queries. -/
def readLoop (query : Bytes → Bytes → Except Err Snapshot) :
    ℕ → ReadState → Option (Except Err PriorReview)
  | 0, _ => none
  | n+1, s =>
    match query s.tc s.rc with
    | .error err => some (.error err)
    | .ok snap =>
      let s := readThreads (readComments s snap.comments) snap.reviewThreads
      if s.doneC && s.doneT then some (.ok s.out) else readLoop query n s

def ListCadooArtifacts (query : Bytes → Bytes → Except Err Snapshot) (pr : PullRequest)
    (queries : ℕ) : Option (Except Err PriorReview) :=
  match splitRepo pr.repoFullName with
  | none => some (.error invalidRepo)
  | some _ => readLoop query queries {}

/-- A connection hands out a list in a number of pages, from a cursor on. -/
inductive Lists {α : Type} (conn : Bytes → Page α) : Bytes → List α → ℕ → Prop
  | last (cursor) (h : (conn cursor).hasNextPage = false) : Lists conn cursor (conn cursor).nodes 1
  | more (cursor) {rest n} (h : (conn cursor).hasNextPage = true)
      (hne : (conn cursor).endCursor ≠ []) (tail : Lists conn (conn cursor).endCursor rest n) :
      Lists conn cursor ((conn cursor).nodes ++ rest) (n+1)

/-- What is left of a connection in the course of the loop. -/
def Remains {α : Type} (conn : Bytes → Page α) (done : Bool) (cursor : Bytes) (xs : List α) (n : ℕ) :
    Prop :=
  if done then xs = [] ∧ n = 0 else Lists conn cursor xs n

lemma Remains.done {α : Type} {conn : Bytes → Page α} {done : Bool} {cursor : Bytes} {xs : List α}
    {n : ℕ} (h : Remains conn done cursor xs n) (hn : n = 0) : done = true := by
  unfold Remains at h
  cases done with
  | true => rfl
  | false =>
    subst hn
    cases h

lemma scan_comm (out : PriorReview) (c : IssueComment) (th : ReviewThread) :
    scanThread (scanComment out c) th = scanComment (scanThread out th) c := by
  unfold scanThread scanComment
  cases readThread th with
  | none => rfl
  | some found => dsimp only; split <;> rfl

/-- Once an overview comment is found, the comments behind it are passed over. -/
lemma foldl_scanComment_found (cs : List IssueComment) {out : PriorReview} (h : out.summaryCommentID ≠ []) :
    cs.foldl scanComment out = out := by
  induction cs with
  | nil => rfl
  | cons c cs ih =>
    have hc : scanComment out c = out := if_neg fun hn => h hn.1
    rw [List.foldl_cons,hc,ih]

lemma scanThread_foldl (cs : List IssueComment) (th : ReviewThread) (out : PriorReview) :
    scanThread (cs.foldl scanComment out) th = cs.foldl scanComment (scanThread out th) := by
  induction cs generalizing out with
  | nil => rfl
  | cons c cs ih => rw [List.foldl_cons,ih,scan_comm,List.foldl_cons]

/-- Overview comments and threads are read into different fields, in any order. -/
lemma foldl_scan_comm (cs : List IssueComment) (ths : List ReviewThread) (out : PriorReview) :
    ths.foldl scanThread (cs.foldl scanComment out) = cs.foldl scanComment (ths.foldl scanThread out) := by
  induction ths generalizing out with
  | nil => rfl
  | cons th ths ih => rw [List.foldl_cons,scanThread_foldl,ih,List.foldl_cons]

section Paging
variable {comments : Bytes → Page IssueComment} {threads : Bytes → Page ReviewThread}

lemma readComments_remains {s : ReadState} {cs : List IssueComment} {n : ℕ}
    (h : Remains comments s.doneC s.tc cs n) : ∃ cs' n',
      Remains comments (readComments s (comments s.tc)).doneC (readComments s (comments s.tc)).tc cs' n' ∧
      n' = n-1 ∧ cs'.foldl scanComment (readComments s (comments s.tc)).out = cs.foldl scanComment s.out ∧
      (readComments s (comments s.tc)).rc = s.rc ∧ (readComments s (comments s.tc)).doneT = s.doneT := by
  unfold readComments Remains at *
  cases hd : s.doneC with
  | true =>
    rw [hd] at h
    obtain ⟨rfl,rfl⟩ := h
    exact ⟨[],0,by simp [hd]⟩
  | false =>
    rw [hd] at h
    cases h with
    | last _ hn => exact ⟨[],0,by simp [hn]⟩
    | more _ hn hne tail => exact ⟨_,_,by simpa [hd,hn] using tail,by simp [hn]⟩

lemma readThreads_remains {s : ReadState} {ths : List ReviewThread} {n : ℕ}
    (h : Remains threads s.doneT s.rc ths n) : ∃ ths' n',
      Remains threads (readThreads s (threads s.rc)).doneT (readThreads s (threads s.rc)).rc ths' n' ∧
      n' = n-1 ∧ ths'.foldl scanThread (readThreads s (threads s.rc)).out = ths.foldl scanThread s.out ∧
      (readThreads s (threads s.rc)).tc = s.tc ∧ (readThreads s (threads s.rc)).doneC = s.doneC := by
  unfold readThreads Remains at *
  cases hd : s.doneT with
  | true =>
    rw [hd] at h
    obtain ⟨rfl,rfl⟩ := h
    exact ⟨[],0,by simp [hd]⟩
  | false =>
    rw [hd] at h
    cases h with
    | last _ hn => exact ⟨[],0,by simp [hn]⟩
    | more _ hn hne tail => exact ⟨_,_,by simpa [hd,hn] using tail,by simp [hn]⟩

/-- With enough queries the loop ends, with all comments and threads read, however they were split
into pages. -/
lemma readLoop_eq {query : Bytes → Bytes → Except Err Snapshot}
    (hq : ∀ tc rc, query tc rc = .ok ⟨comments tc,threads rc⟩) (N : ℕ) {s : ReadState}
    {cs : List IssueComment} {ths : List ReviewThread} {n m : ℕ}
    (hc : Remains comments s.doneC s.tc cs n) (ht : Remains threads s.doneT s.rc ths m)
    (hn : n ≤ N) (hm : m ≤ N) (hN : 0 < N) :
    readLoop query N s = some (.ok (ths.foldl scanThread (cs.foldl scanComment s.out))) := by
  induction N generalizing s cs ths n m with
  | zero => omega
  | succ N ih =>
    rw [readLoop,hq]
    obtain ⟨cs',n',hc',hn',hcs,hrc,hdT⟩ := readComments_remains hc
    have ht' : Remains threads (readComments s (comments s.tc)).doneT
        (readComments s (comments s.tc)).rc ths m := by rw [hrc,hdT]; exact ht
    obtain ⟨ths',m',ht'',hm',hths,htc,hdC⟩ := readThreads_remains ht'
    rw [hrc] at ht'' hths htc hdC
    rw [← htc,← hdC] at hc'
    dsimp only
    have hout : ths'.foldl scanThread (cs'.foldl scanComment
        (readThreads (readComments s (comments s.tc)) (threads s.rc)).out) =
        ths.foldl scanThread (cs.foldl scanComment s.out) := by
      rw [foldl_scan_comm,hths,← foldl_scan_comm,hcs]
    split
    · next hd =>
      rw [Bool.and_eq_true] at hd
      rw [Remains,hd.1] at hc'
      rw [Remains,hd.2] at ht''
      obtain ⟨rfl,-⟩ := hc'
      obtain ⟨rfl,-⟩ := ht''
      rw [← hout]
      rfl
    · next hd =>
      have hpos : 0 < N := by
        by_contra h0
        exact hd (by rw [hc'.done (by omega),ht''.done (by omega)]; rfl)
      rw [ih hc' ht'' (by omega) (by omega) hpos,hout]

end Paging

/-- The read-back of a pull request does not depend on how the server pages it. -/
theorem ListCadooArtifacts_eq {comments : Bytes → Page IssueComment}
    {threads : Bytes → Page ReviewThread} {query : Bytes → Bytes → Except Err Snapshot}
    {pr : PullRequest} {repo : Bytes × Bytes} (hrepo : splitRepo pr.repoFullName = some repo)
    (hq : ∀ tc rc, query tc rc = .ok ⟨comments tc,threads rc⟩) {cs : List IssueComment}
    {ths : List ReviewThread} {n m N : ℕ} (hc : Lists comments [] cs n) (ht : Lists threads [] ths m)
    (hN : max n m ≤ N) : ListCadooArtifacts query pr N =
      some (.ok (ths.foldl scanThread (cs.foldl scanComment {}))) := by
  have hpos : 0 < n := by
    by_contra h0
    have hr : Remains comments false [] cs n := hc
    exact absurd (hr.done (by omega)) (by simp)
  rw [ListCadooArtifacts,hrepo]
  exact readLoop_eq hq N (s := {}) (by exact hc) (by exact ht) (by omega) (by omega) (by omega)

/-- The threads add their findings, in order, and nothing else. -/
lemma foldl_scanThread (ths : List ReviewThread) (out : PriorReview) :
    ths.foldl scanThread out = { out with inline := out.inline ++ ths.filterMap readThread } := by
  induction ths generalizing out with
  | nil => simp
  | cons th ths ih =>
    rw [List.foldl_cons,ih,List.filterMap_cons,scanThread]
    cases readThread th <;> simp

lemma foldl_scanComment_inline (cs : List IssueComment) (out : PriorReview) :
    (cs.foldl scanComment out).inline = out.inline := by
  induction cs generalizing out with
  | nil => rfl
  | cons c cs ih =>
    rw [List.foldl_cons,ih,scanComment]
    split <;> rfl

/-- The inline findings read back are those of the threads, in order. -/
theorem inline_of_scan (cs : List IssueComment) (ths : List ReviewThread) :
    (ths.foldl scanThread (cs.foldl scanComment {})).inline = ths.filterMap readThread := by
  rw [foldl_scanThread,foldl_scanComment_inline]
  rfl

end GitHub
