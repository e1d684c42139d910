import Cadoo.Findings.RoundTrip
import Cadoo.Orchestrator.Incremental
import Cadoo.Vcs.GitHub

/-! Stateless runs on GitHub. A first run posts its comments as review threads; a second one rebuilds
its store from these threads, and given the same comments it posts nothing and resolves nothing. -/
namespace Orchestrator
open Bytes Utf8 Vcs Findings GitHub Pattern

variable (U : Tables)

/-- A thread opened by a comment of a review. -/
def Carries (th : ReviewThread) (c : InlineComment) : Prop :=
  th.isResolved = false ∧ th.comments = [⟨(draft c).path,(draft c).body⟩]

/-- The threads of a pull request after a review was accepted: one or more for each comment sent,
and beside them only threads without a marker. -/
structure ThreadsOf (sent : List InlineComment) (ths : List ReviewThread) : Prop where
  opened : ∀ c ∈ sent, ∃ th ∈ ths, Carries th c
  only : ∀ th ∈ ths, readThread th = none ∨ ∃ c ∈ sent, Carries th c

/-- Equal structural keys come from equal files, severities and titles. -/
def KeysFaithful (tool : Bytes) (comments : List InlineComment) : Prop :=
  ∀ c ∈ comments, ∀ d ∈ comments, StructuralKey U tool c = StructuralKey U tool d →
    toLower U c.file = toLower U d.file ∧ toLower U c.severity = toLower U d.severity ∧
      normalizeTitle U c.body = normalizeTitle U d.body

lemma newline_notMem_severityPrefix (s : Severity) : newline ∉ severityPrefix s := by
  unfold severityPrefix
  split
  · decide
  · split
    · decide
    · split <;> decide

/-- A text without line breaks in front makes no marker. -/
lemma search_append_of_notMem {u s : Bytes} (hu : newline ∉ u)
    (hs : inlineMarkerRe.search s = none) : inlineMarkerRe.search (u ++ s) = none := by
  rw [search_eq_none_iff] at hs ⊢
  intro x w v cs h hm
  obtain ⟨t,ht,-⟩ := marker_matches hm
  obtain ⟨b,lead,hlead⟩ := List.exists_cons_of_ne_nil t.lead_ne
  obtain rfl : b = newline := t.lead_newline b (by simp [hlead])
  obtain ⟨w',rfl⟩ : ∃ w', w = newline :: w' := ⟨_,by rw [ht,MarkerText.text,hlead]; rfl⟩
  rcases append_eq_append_cons (by simpa using h) with ⟨g,hg,-⟩ | ⟨g,-,hg⟩
  · exact hu (by simp [hg])
  · exact hs g _ v cs (by simpa using hg) hm

section ReadBack
variable {tool : Bytes} {c : InlineComment} (ht : tool ≠ [])
  (htool : ∀ b ∈ tool, reNonSpace b = true) (hsev : ∀ b ∈ c.severity, reNonSpace b = true)
  (hb : inlineMarkerRe.search c.body = none)
include ht htool hsev hb

/-- A thread that carries the posted copy of a comment is read back as that comment. -/
lemma readThread_carries {th : ReviewThread} (h : Carries th (wireComment U tool c)) :
    ∃ pi, readThread th = some pi ∧ pi.tool = tool ∧ pi.file = c.file ∧ pi.severity = c.severity ∧
      pi.structuralKey = StructuralKey U tool c ∧ pi.resolved = false := by
  obtain ⟨hopen,hcs⟩ := h
  have hpath : (draft (wireComment U tool c)).path = c.file := by
    unfold draft wireComment
    rw [if_neg ht]
    dsimp only
    split
    · rfl
    · split <;> rfl
  have hbody : (draft (wireComment U tool c)).body = formatSeverity c.severity ++
      (StampInline U tool c ++ (lit "\n\n" ++ buildAIPromptBlock c cadooAIIconURL)) := by
    unfold draft wireComment
    rw [if_neg ht]
    dsimp only
    rw [← List.append_assoc (StampInline U tool c)]
    split
    · rfl
    · split <;> rfl
  have hnone := search_append_of_notMem (newline_notMem_severityPrefix c.severity) hb
  have hparse := ParseInlineMarker_StampInline U (formatSeverity c.severity)
    (lit "\n\n" ++ buildAIPromptBlock c cadooAIIconURL) ht htool hsev hnone
  simp only [readThread,hcs,hpath,hbody,hparse]
  exact ⟨_,rfl,rfl,rfl,rfl,rfl,hopen⟩

end ReadBack

lemma filterNew_eq_nil {has : InlineComment → Bool} {tool : Bytes} {cs : List InlineComment}
    {seen : List Bytes} (h : ∀ c ∈ cs, has c = true) : filterNew U has tool cs seen = [] := by
  induction cs with
  | nil => rfl
  | cons c cs ih =>
    rw [filterNew_cons,if_pos (h c (by simp))]
    exact ih fun d hd => h d (by simp [hd])

/-- A first run over an empty store sends, for each comment, one with its key. -/
lemma first_run_covers {W : Type} (p : Provider W) (pr : PullRequest) (key : PRKey) {tool : Bytes}
    (ht : tool ≠ []) (comments : List InlineComment) (changeSet : List Bytes)
    (incrementalRun : Bool) (host : W) :
    let sent := sentComments (postInline U p pr key tool comments changeSet incrementalRun
      (.ofMemory host {})).calls
    (∀ c ∈ comments, ∃ d ∈ comments, StructuralKey U tool d = StructuralKey U tool c ∧
      wireComment U tool d ∈ sent) ∧
    ∀ c ∈ sent, ∃ d ∈ comments, c = wireComment U tool d := by
  intro sent
  have hsent : sent = (filterNew U (known U (some { mem := some {} }) key tool) tool comments
      []).map (wireComment U tool) := by
    change sentComments _ = _
    rw [postInline_sent,newComments,if_neg ht]
    rfl
  rw [hsent]
  constructor
  · intro c hc
    rcases filterNew_covers U (known U (some { mem := some {} }) key tool) tool [] hc
      rfl with h | ⟨d,hd,hk⟩
    · simp at h
    · exact ⟨d,(mem_filterNew U _ tool hd).1,hk,List.mem_map_of_mem hd⟩
  · intro c hc
    obtain ⟨d,hd,rfl⟩ := List.mem_map.mp hc
    exact ⟨d,(mem_filterNew U _ tool hd).1,rfl⟩

section FirstRun
variable {W : Type}

/-- A server that accepts reviews, seen through its threads: each comment of a review opens one. -/
structure AcceptsReviews
    (createReview : Bytes → Bytes → ℤ → List DraftReviewComment → W → Option Err × W)
    (threads : W → List ReviewThread) : Prop where
  accepted : ∀ owner name number drafts host, (createReview owner name number drafts host).1 = none
  opened : ∀ owner name number drafts host, ∃ new,
    threads (createReview owner name number drafts host).2 = threads host ++ new ∧
      new.map (fun th => (th.isResolved,th.comments)) =
        drafts.map fun d => (false,[⟨d.path,d.body⟩])

variable {createReview : Bytes → Bytes → ℤ → List DraftReviewComment → W → Option Err × W}
  {threads : W → List ReviewThread} (other : Provider W) (pr : PullRequest) (key : PRKey)
  (tool : Bytes) (comments : List InlineComment) (changeSet : List Bytes) (incrementalRun : Bool)

/-- Over an empty store a run does nothing to the server but post its comments. -/
lemma first_run_host (p : Provider W) (host : W) :
    (postInline U p pr key tool comments changeSet incrementalRun (.ofMemory host {})).host =
      (postDelta U p pr key tool (newComments U (some { mem := some {} }) key tool comments)
        (.ofMemory host {})).host := by
  have hprior : priorFindings (some { mem := some {} }) key tool = [] := by
    unfold priorFindings
    dsimp only
    split <;> rfl
  rw [postInline]
  change (resolveStalePriors U p pr tool (priorFindings (some { mem := some {} }) key tool) comments
    changeSet incrementalRun _).host = _
  rw [hprior,resolveStalePriors,if_pos (.inr rfl)]
  rfl

/-- A first run through the adapter leaves the pull request with the threads of what it sent. -/
theorem threadsOf_first_run (h : AcceptsReviews createReview threads) {host : W}
    {repo : Bytes × Bytes} (hrepo : splitRepo pr.repoFullName = some repo)
    (hold : ∀ th ∈ threads host, readThread th = none) :
    let w := postInline U (adapter createReview other) pr key tool comments changeSet incrementalRun
      (.ofMemory host {})
    ThreadsOf (sentComments w.calls) (threads w.host) := by
  intro w
  have hsent : sentComments w.calls =
      (newComments U (some { mem := some {} }) key tool comments).map (wireComment U tool) := by
    rw [postInline_sent]
    rfl
  rw [hsent,first_run_host]
  generalize newComments U (some { mem := some {} }) key tool comments = delta
  by_cases hd : delta = []
  · subst hd
    exact ⟨by simp,fun th hth => .inl (hold th hth)⟩
  · have hhost : (postDelta U (adapter createReview other) pr key tool delta (.ofMemory host {})).host =
        (createReview repo.1 repo.2 pr.number ((delta.map (wireComment U tool)).map draft) host).2 := by
      have hpost : (PostInlineComments createReview pr (delta.map (wireComment U tool)) host).2 =
          (createReview repo.1 repo.2 pr.number ((delta.map (wireComment U tool)).map draft) host).2 := by
        rw [PostInlineComments,if_neg (by simpa using hd),hrepo]
        dsimp only
        cases hc : createReview repo.1 repo.2 pr.number ((delta.map (wireComment U tool)).map draft)
            host with
        | mk err w => cases err <;> rfl
      rw [postDelta,if_neg hd,← hpost]
      dsimp only
      split <;> rfl
    obtain ⟨new,hnew,hmap⟩ := h.opened repo.1 repo.2 pr.number
      ((delta.map (wireComment U tool)).map draft) host
    rw [hhost,hnew]
    constructor
    · intro c hc
      have hm : (false,[(⟨(draft c).path,(draft c).body⟩ : ThreadComment)]) ∈
          new.map fun th => (th.isResolved,th.comments) := by
        rw [hmap]
        exact List.mem_map.mpr ⟨draft c,List.mem_map_of_mem hc,rfl⟩
      obtain ⟨th,hth,he⟩ := List.mem_map.mp hm
      exact ⟨th,List.mem_append_right _ hth,Prod.mk.inj he⟩
    · intro th hth
      rcases List.mem_append.mp hth with hth | hth
      · exact .inl (hold th hth)
      · have hm := List.mem_map_of_mem (f := fun th : ReviewThread => (th.isResolved,th.comments)) hth
        rw [hmap] at hm
        obtain ⟨d,hd',he⟩ := List.mem_map.mp hm
        obtain ⟨c,hc,rfl⟩ := List.mem_map.mp hd'
        obtain ⟨h₁,h₂⟩ := Prod.mk.inj he
        exact .inr ⟨c,hc,h₁.symm,h₂.symm⟩

end FirstRun

section SecondRun
variable {tool : Bytes} {comments : List InlineComment} {sent : List InlineComment}
  {ths : List ReviewThread} (ht : tool ≠ []) (htool : ∀ b ∈ tool, reNonSpace b = true)
  (hsev : ∀ c ∈ comments, ∀ b ∈ c.severity, reNonSpace b = true)
  (hbody : ∀ c ∈ comments, inlineMarkerRe.search c.body = none)
  (hsent : ∀ c ∈ sent, ∃ d ∈ comments, c = wireComment U tool d) (hths : ThreadsOf sent ths)
include ht htool hsev hbody hsent hths

/-- What the threads hold beside a comment that was sent is one of the comments reported. -/
lemma seeded_of_thread {r : FindingRec} (hr : r ∈ (ths.filterMap readThread).map (seedRec U)) :
    ∃ d ∈ comments, r.structuralKey = StructuralKey U tool d := by
  obtain ⟨pi,hpi,rfl⟩ := List.mem_map.mp hr
  obtain ⟨th,hth,hread⟩ := List.mem_filterMap.mp hpi
  rcases hths.only th hth with hnone | ⟨c,hc,hcar⟩
  · simp [hnone] at hread
  · obtain ⟨d,hd,rfl⟩ := hsent c hc
    obtain ⟨pi',hpi',-,-,-,hk,-⟩ :=
      readThread_carries U ht htool (hsev d hd) (hbody d hd) hcar
    obtain rfl : pi' = pi := by simpa [hpi'] using hread
    exact ⟨d,hd,hk⟩

omit hsent in
/-- The store rebuilt from the threads knows every comment of which one with its key was sent. -/
lemma known_of_sent (hlower : ∀ c ∈ comments, toLower U c.severity = c.severity)
    (hfile : ∀ c ∈ comments, ∀ d ∈ comments, toLower U c.file = toLower U d.file → c.file = d.file)
    (hkeys : KeysFaithful U tool comments) {key : PRKey} {review : PriorReview}
    (hinl : review.inline = ths.filterMap readThread) {c d : InlineComment} (hc : c ∈ comments)
    (hd : d ∈ comments) (hk : StructuralKey U tool d = StructuralKey U tool c)
    (hsd : wireComment U tool d ∈ sent) :
    known U (some (NewFromPrior U key review)) key tool c = true := by
  obtain ⟨th,hth,hcar⟩ := hths.opened _ hsd
  obtain ⟨pi,hread,hpt,hpf,hps,hpk,hpr⟩ :=
    readThread_carries U ht htool (hsev d hd) (hbody d hd) hcar
  obtain ⟨hf,hs,-⟩ := hkeys d hd c hc hk
  rw [hlower d hd,hlower c hc] at hs
  change ((priorMemory U key review).findings.get key).any _ = true
  rw [priorMemory_findings,hinl,List.any_eq_true]
  refine ⟨seedRec U pi,List.mem_map_of_mem (List.mem_filterMap.mpr ⟨th,hth,hread⟩),?_⟩
  simp [FindingRec.matchesComment,seedRec,hpt,hpf,hps,hpk,hpr,hfile d hd c hc hf,hs,hk]

end SecondRun

/-- Stateless runs converge. When the comments of a first run over an empty store became review
threads, a second run over what is read back from them, given the same comments and in whatever
mode, sends no comment and resolves no thread. -/
theorem stateless_rerun_converges {W₁ W₂ : Type} (p₁ : Provider W₁) (p₂ : Provider W₂)
    (pr : PullRequest) (key : PRKey) (job : ToolJob) (comments : List InlineComment)
    (changeSet₁ changeSet₂ : List Bytes) (incremental₁ incremental₂ : Bool) (host₁ : W₁)
    (host₂ : W₂) (htool : ∀ b ∈ job.tool, reNonSpace b = true)
    (hlower : ∀ c ∈ comments, toLower U c.severity = c.severity)
    (hsev : ∀ c ∈ comments, ∀ b ∈ c.severity, reNonSpace b = true)
    (hbody : ∀ c ∈ comments, inlineMarkerRe.search c.body = none)
    (hfile : ∀ c ∈ comments, ∀ d ∈ comments, toLower U c.file = toLower U d.file → c.file = d.file)
    (hkeys : KeysFaithful U (withDefaults job).tool comments)
    {ths : List ReviewThread} (hths : ThreadsOf (sentComments (postInline U p₁ pr key
      (withDefaults job).tool comments changeSet₁ incremental₁ (.ofMemory host₁ {})).calls) ths)
    {repo : Bytes × Bytes} (hrepo : splitRepo pr.repoFullName = some repo)
    {overviews : Bytes → Page IssueComment} {threads : Bytes → Page ReviewThread}
    {query : Bytes → Bytes → Except Err Snapshot}
    (hquery : ∀ tc rc, query tc rc = .ok ⟨overviews tc,threads rc⟩) {cs : List IssueComment}
    {n m : ℕ} (hc : Lists overviews [] cs n) (ht : Lists threads [] ths m) :
    ∃ review, (∀ N, max n m ≤ N → ListCadooArtifacts query pr N = some (.ok review)) ∧
      let calls := (postInline U p₂ pr key (withDefaults job).tool comments changeSet₂ incremental₂
        ⟨host₂,some (NewFromPrior U key review),[]⟩).calls
      sentComments calls = [] ∧ resolvedIDs calls = [] := by
  have htne := withDefaults_tool_ne job
  have htns : ∀ b ∈ (withDefaults job).tool, reNonSpace b = true := by
    rw [withDefaults_tool]
    split
    · decide +kernel
    · exact htool
  generalize (withDefaults job).tool = tool at *
  obtain ⟨hcovers,hsent⟩ := first_run_covers U p₁ pr key htne comments changeSet₁ incremental₁ host₁
  refine ⟨ths.foldl scanThread (cs.foldl scanComment {}),
    fun N hN => ListCadooArtifacts_eq hrepo hquery hc ht hN,?_⟩
  have hinl := inline_of_scan cs ths
  generalize ths.foldl scanThread (cs.foldl scanComment {}) = review at *
  intro calls
  constructor
  · rw [postInline_sent,newComments,if_neg htne,filterNew_eq_nil]
    · rfl
    · intro c hcm
      obtain ⟨d,hd,hk,hsd⟩ := hcovers c hcm
      exact known_of_sent U htne htns hsev hbody hths hlower hfile hkeys hinl hcm hd hk hsd
  · suffices h : stalePriors U tool comments changeSet₂ incremental₂
        (priorFindings (some (NewFromPrior U key review)) key tool) = [] by
      rw [postInline_resolved,h]
      rfl
    rw [List.eq_nil_iff_forall_not_mem]
    intro q hq
    obtain ⟨-,hqm,-,-,-,hk⟩ := (mem_stalePriors U tool comments changeSet₂ incremental₂).mp hq
    have hlist : priorFindings (some (NewFromPrior U key review)) key tool =
        (review.inline.map (seedRec U)).map FindingRec.posted := by
      rw [priorFindings,if_neg htne,← priorMemory_findings U key review]
      rfl
    rw [hlist,hinl] at hqm
    obtain ⟨r,hr,rfl⟩ := List.mem_map.mp hqm
    obtain ⟨d,hd,hsk⟩ := seeded_of_thread U htne htns hsev hbody hsent hths hr
    apply hk
    rw [priorKey,if_pos (by rw [FindingRec.posted,hsk]; exact StructuralKey_ne_nil U tool d)]
    exact List.mem_map.mpr ⟨d,hd,hsk.symm⟩

section LeakyHandler

/-- The thread GitHub opens for the posted copy of one comment. -/
def leakyThread : ReviewThread where
  id := lit "PRRT_1"
  isResolved := false
  line := some 42
  comments := [⟨(draft (wireComment Tables.plain (lit "review") leakyHandler)).path,
    (draft (wireComment Tables.plain (lit "review") leakyHandler)).body⟩]

def onePage {α : Type} (nodes : List α) : Bytes → Page α := fun _ => ⟨nodes,false,[]⟩

theorem leakyHandler_converges :
    ∃ review, (∀ N, max 1 1 ≤ N → ListCadooArtifacts
        (fun tc rc => .ok ⟨onePage [] tc,onePage [leakyThread] rc⟩) examplePR N =
          some (.ok review)) ∧
      let calls := (postInline Tables.plain (quietProvider examplePR) examplePR exampleKey
        (withDefaults reviewJob).tool [leakyHandler] [] false
        ⟨(),some (NewFromPrior Tables.plain exampleKey review),[]⟩).calls
      sentComments calls = [] ∧ resolvedIDs calls = [] := by
  have htool : (withDefaults reviewJob).tool = lit "review" := rfl
  obtain ⟨hcovers,hsent⟩ := first_run_covers Tables.plain (quietProvider examplePR) examplePR
    exampleKey (withDefaults_tool_ne reviewJob) [leakyHandler] [] false ()
  have hbody : ∀ c ∈ [leakyHandler], inlineMarkerRe.search c.body = none := by
    simp only [List.mem_singleton,forall_eq]
    decide +kernel
  have hrepo : splitRepo examplePR.repoFullName = some (lit "acme",lit "shop") := by decide
  have hcomments : Lists (onePage ([] : List IssueComment)) [] [] 1 := .last [] rfl
  have hthreads : Lists (onePage [leakyThread]) [] [leakyThread] 1 := .last [] rfl
  refine stateless_rerun_converges Tables.plain (quietProvider examplePR) (quietProvider examplePR)
    examplePR exampleKey reviewJob [leakyHandler] [] [] false false () () (by decide +kernel)
    (by decide +kernel) (by decide +kernel) hbody (by simp) (by simp [KeysFaithful]) ⟨?_,?_⟩ hrepo (fun _ _ => rfl)
    hcomments hthreads
  · intro c hc
    obtain ⟨d,hd,rfl⟩ := hsent c hc
    obtain rfl := List.mem_singleton.mp hd
    exact ⟨leakyThread,by simp,rfl,by rw [htool]; rfl⟩
  · intro th hth
    obtain rfl := List.mem_singleton.mp hth
    obtain ⟨d,hd,-,hs⟩ := hcovers leakyHandler (by simp)
    obtain rfl := List.mem_singleton.mp hd
    exact .inr ⟨_,hs,rfl,by rw [htool]; rfl⟩

end LeakyHandler

end Orchestrator
