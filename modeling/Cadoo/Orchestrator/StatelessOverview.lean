import Cadoo.Findings.Prior
import Cadoo.Lib.Machine
import Cadoo.Orchestrator.Summary
import Cadoo.Vcs.GitHub

/-! The overview comment from one stateless run to the next. The comment is found again and edited in
place, but the sections in it are not read back: what a later run writes holds its own sections only, and
an earlier text stays readable only where one of them repeats it. -/
namespace Orchestrator
open Bytes Utf8 Vcs Findings

variable (U : Tables) {W : Type} (p : Provider W) (pr : PullRequest) (key : PRKey)

/-- A provider on which a comment can be edited, seen through its text; a comment posted elsewhere
leaves it alone. -/
structure EditsInPlace (id : Bytes) (text : W → Bytes) : Prop where
  succeeds : ∀ body host, (p.updateSummaryComment pr id body host).1 = none
  shows : ∀ body host, text (p.updateSummaryComment pr id body host).2 = body
  keeps : ∀ body host, text (p.postSummaryComment pr body host).2 = text host

/-- The summaries of a run, posted one after the other. -/
def postSummaries (w : World W) (calls : List Section) : World W :=
  Machine.run (fun w j => postSummary p pr key j.tool j.body w) w calls

/-- The sections a run stores; a call without a tool stores none. -/
def storeSections (m : MemoryStore) (calls : List Section) : MemoryStore :=
  Machine.run (fun m j => if j.tool = [] then m else m.putSection key j.tool j.body) m calls

/-- The sections of a run on its own. -/
def ownSections (calls : List Section) : List Section := (storeSections key {} calls).allSections key

/-- A run shows a section that is the last summary of its tool and not empty. -/
def Shown (calls : List Section) (x : Section) : Prop :=
  x.tool ≠ [] ∧ x.body ≠ [] ∧ ∃ l r, calls = l ++ x :: r ∧ ∀ j ∈ r, j.tool ≠ x.tool

section Store
variable {key}

lemma storeSections_concat (m : MemoryStore) (calls : List Section) (j : Section) :
    storeSections key m (calls ++ [j]) = if j.tool = [] then storeSections key m calls
      else (storeSections key m calls).putSection key j.tool j.body :=
  Machine.run_append _ m calls [j]

lemma storeSections_summaries (m : MemoryStore) (calls : List Section) :
    (storeSections key m calls).summaries = m.summaries := by
  apply Machine.run_invariant (I := fun m' : MemoryStore => m'.summaries = m.summaries) _ _ rfl
  intro m' j _ h
  split
  · exact h
  · exact h

/-- What is stored depends on the sections there were and on nothing else. -/
lemma storeSections_sections {m m' : MemoryStore} (h : m.sections = m'.sections)
    (calls : List Section) : (storeSections key m calls).sections =
      (storeSections key m' calls).sections := by
  induction calls using List.reverseRecOn with
  | nil => exact h
  | append_singleton calls j ih =>
    rw [storeSections_concat,storeSections_concat]
    split
    · exact ih
    · rw [MemoryStore.putSection,MemoryStore.putSection,ih]

lemma allSections_storeSections {m : MemoryStore} (h : m.sections = ∅) (calls : List Section) :
    (storeSections key m calls).allSections key = ownSections key calls := by
  have hs : (storeSections key m calls).sections = (storeSections key {} calls).sections :=
    storeSections_sections h calls
  rw [ownSections,MemoryStore.allSections,MemoryStore.allSections,hs]

lemma shown_concat (calls : List Section) (j x : Section) : Shown (calls ++ [j]) x ↔
    (x = j ∧ j.tool ≠ [] ∧ j.body ≠ []) ∨ (Shown calls x ∧ j.tool ≠ x.tool) := by
  constructor
  · rintro ⟨ht,hb,l,r,heq,hr⟩
    induction r using List.reverseRecOn with
    | nil =>
      obtain ⟨-,rfl⟩ := List.append_singleton_inj.mp heq
      exact .inl ⟨rfl,ht,hb⟩
    | append_singleton r i _ =>
      have hsplit : calls ++ [j] = (l ++ x :: r) ++ [i] := by rw [heq,List.append_assoc,List.cons_append]
      obtain ⟨hcalls,rfl⟩ := List.append_singleton_inj.mp hsplit
      exact .inr ⟨⟨ht,hb,l,r,hcalls,fun k hk => hr k (List.mem_append_left _ hk)⟩,hr j (by simp)⟩
  · rintro (⟨rfl,ht,hb⟩ | ⟨⟨ht,hb,l,r,rfl,hr⟩,hj⟩)
    · exact ⟨ht,hb,calls,[],rfl,by simp⟩
    · refine ⟨ht,hb,l,r ++ [j],by simp,?_⟩
      intro i hi
      rcases List.mem_append.mp hi with hi | hi
      · exact hr i hi
      · rw [List.mem_singleton.mp hi]
        exact hj

/-- The sections of a run are those it shows. -/
theorem mem_ownSections (calls : List Section) (x : Section) : x ∈ ownSections key calls ↔ Shown calls x := by
  rw [ownSections,MemoryStore.mem_allSections]
  induction calls using List.reverseRecOn with
  | nil =>
    refine ⟨?_,?_⟩
    · rintro ⟨-,hb,hget⟩
      exact absurd hget.symm hb
    · rintro ⟨-,-,l,r,h,-⟩
      exact absurd h (by simp)
  | append_singleton calls j ih =>
    rw [storeSections_concat,shown_concat,← ih]
    by_cases hj : j.tool = []
    · rw [if_pos hj]
      refine ⟨fun h => .inr ⟨h,fun he => h.1 (he ▸ hj)⟩,?_⟩
      rintro (⟨-,h,-⟩ | ⟨h,-⟩)
      · exact absurd hj h
      · exact h
    · rw [if_neg hj,MemoryStore.putSection,GoMap.get_insert,GoMap.get_insert_eq]
      by_cases he : x.tool = j.tool
      · rw [if_pos he]
        constructor
        · rintro ⟨ht,hb,hget⟩
          have hx : x = j := by
            cases x
            cases j
            exact congrArg₂ _ he hget.symm
          exact .inl ⟨hx,hj,hx ▸ hb⟩
        · rintro (⟨rfl,ht,hb⟩ | ⟨-,hne⟩)
          · exact ⟨ht,hb,rfl⟩
          · exact absurd he.symm hne
      · rw [if_neg he]
        refine ⟨fun h => .inr ⟨h,fun h' => he h'.symm⟩,?_⟩
        rintro (⟨rfl,-⟩ | ⟨h,-⟩)
        · exact absurd rfl he
        · exact h

end Store

section Edits
variable {p pr key} {id : Bytes} {text : W → Bytes} (hp : EditsInPlace p pr id text) (hid : id ≠ [])
include hp hid

/-- A tool's summary is written into the known comment, with all sections stored by then. -/
lemma postSummary_edits {m : MemoryStore} (hm : m.summaryID key WrapperToolKey = id) {j : Section}
    (ht : j.tool ≠ []) {w : World W} (hw : w.posted = some { mem := some m }) :
    let w' := postSummary p pr key j.tool j.body w
    w'.posted = some { mem := some (m.putSection key j.tool j.body) } ∧ text w'.host =
      renderConsolidated ((m.putSection key j.tool j.body).allSections key) pr.headSHA := by
  have hen : ¬ (j.tool = [] ∨ ({ mem := some m } : Store).Enabled = false) := by
    simp [ht,Store.Enabled]
  have hex : existingID key { mem := some (m.putSection key j.tool j.body) } = id := hm
  intro w'
  have hw' : w' = publishOverview p pr key j.tool j.body
      { mem := some (m.putSection key j.tool j.body) }
      { w with posted := some { mem := some (m.putSection key j.tool j.body) } } := by
    change postSummary p pr key j.tool j.body w = _
    rw [postSummary,hw]
    exact if_neg hen
  rw [hw',publishOverview,hex,if_pos hid]
  generalize hr : renderConsolidated _ pr.headSHA = rendered
  cases hu : World.updateSummaryComment p pr { w with
      posted := some { mem := some (m.putSection key j.tool j.body) } } id rendered with
  | mk err v =>
    obtain rfl : err = none := (congrArg Prod.fst hu).symm.trans (hp.succeeds rendered w.host)
    have hposted := congrArg (fun x => x.2.posted) hu
    have hhost := congrArg (fun x => text x.2.host) hu
    exact ⟨hposted.symm,hhost.symm.trans ((hp.shows rendered w.host).trans hr.symm)⟩

theorem postSummaries_edits {m : MemoryStore} (hm : m.summaryID key WrapperToolKey = id) {w : World W}
    (hw : w.posted = some { mem := some m }) (calls : List Section) :
    (postSummaries p pr key w calls).posted = some { mem := some (storeSections key m calls) } ∧
      text (postSummaries p pr key w calls).host = if ∀ j ∈ calls, j.tool = [] then text w.host
        else renderConsolidated ((storeSections key m calls).allSections key) pr.headSHA := by
  induction calls using List.reverseRecOn with
  | nil => exact ⟨hw,by simp [postSummaries]⟩
  | append_singleton calls j ih =>
    obtain ⟨hposted,htext⟩ := ih
    have hrun : postSummaries p pr key w (calls ++ [j]) =
        postSummary p pr key j.tool j.body (postSummaries p pr key w calls) :=
      Machine.run_append _ w calls [j]
    rw [hrun,storeSections_concat]
    have hall : (∀ i ∈ calls ++ [j], i.tool = []) ↔ (∀ i ∈ calls, i.tool = []) ∧ j.tool = [] := by
      simp [or_imp,forall_and]
    by_cases ht : j.tool = []
    · have hlegacy : postSummary p pr key j.tool j.body (postSummaries p pr key w calls) =
          postLegacySummary p pr j.body (postSummaries p pr key w calls) := by
        rw [postSummary,hposted]
        exact if_pos (.inl ht)
      rw [hlegacy,if_pos ht]
      refine ⟨hposted,?_⟩
      simp only [hall,ht,and_true,← htext]
      exact hp.keeps _ _
    · have hid' : (storeSections key m calls).summaryID key WrapperToolKey = id := by
        rw [MemoryStore.summaryID,storeSections_summaries]
        exact hm
      rw [if_neg ht,if_neg fun h => ht (hall.mp h).2]
      exact postSummary_edits hp hid hid' ht hposted

end Edits

section ReadBack
open GitHub

lemma wrapper_mem_renderConsolidated (sections : List Section) (sha : Bytes) :
    contains (renderConsolidated sections sha) SummaryWrapperBegin = true := by
  rw [contains,decide_eq_true_eq,renderConsolidated]
  simp only [List.append_assoc]
  exact (List.prefix_append _ _).isInfix

lemma foldl_scanComment_of_other (cs : List IssueComment) {out : PriorReview}
    (h : ∀ c ∈ cs, contains c.body SummaryWrapperBegin = false) : cs.foldl scanComment out = out := by
  induction cs with
  | nil => rfl
  | cons c cs ih =>
    rw [List.foldl_cons,scanComment,if_neg fun hc => by simp [h c (by simp)] at hc]
    exact ih fun d hd => h d (by simp [hd])

/-- The read-back finds the overview, when no comment before it looks like one. -/
theorem overview_read_back {before after : List IssueComment} (overview : IssueComment)
    (hb : ∀ c ∈ before, contains c.body SummaryWrapperBegin = false) {sections : List Section}
    {sha : Bytes} (ho : overview.body = renderConsolidated sections sha) (ths : List ReviewThread) :
    (ths.foldl scanThread ((before ++ overview :: after).foldl scanComment {})).summaryCommentID =
      intDecimal overview.databaseID := by
  have hthreads : ∀ out : PriorReview,
      (ths.foldl scanThread out).summaryCommentID = out.summaryCommentID := by
    intro out
    apply List.foldlRecOn (motive := fun o : PriorReview => o.summaryCommentID = out.summaryCommentID)
      ths _ rfl
    intro o ho th _
    rw [scanThread]
    split <;> exact ho
  have hwrap : contains overview.body SummaryWrapperBegin = true := by
    rw [ho]
    exact wrapper_mem_renderConsolidated sections sha
  rw [hthreads,List.foldl_append,foldl_scanComment_of_other before hb,List.foldl_cons,
    foldl_scanComment_found]
  · rw [scanComment,if_pos ⟨rfl,hwrap⟩]
  · rw [scanComment,if_pos ⟨rfl,hwrap⟩]
    exact intDecimal_ne_nil _

end ReadBack

/-- Every section of an earlier overview whose tool posted nothing since can still be read. -/
def KeepsSections (sections calls : List Section) (overview : Bytes) : Prop :=
  ∀ s ∈ sections, (∀ j ∈ calls, j.tool ≠ s.tool) → trimSpace s.body <:+: overview

/-- Either a run writes no overview, or each earlier section whose tool is silent in it is repeated by
what the run shows or by the markup around that. -/
def Survives (sections calls : List Section) (sha : Bytes) : Prop :=
  (∀ j ∈ calls, j.tool = []) ∨
    ∀ s ∈ sections, (∀ j ∈ calls, j.tool ≠ s.tool) → Repeated (Shown calls) sha (trimSpace s.body)

/-- After a stateless run over the overview of an earlier one, the sections of tools that posted no
summary are still there if no tool posted one or the sections of the run happen to repeat them; and only
then, unless such a section has a line break beside an angle bracket and so may be read across the edge of
a section. -/
theorem stateless_overview_keeps {review : PriorReview} {text : W → Bytes}
    (hp : EditsInPlace p pr review.summaryCommentID text) (hid : review.summaryCommentID ≠ [])
    (sections : List Section) (sha : Bytes) {host : W}
    (hhost : text host = renderConsolidated sections sha) (calls : List Section) :
    let after := text (postSummaries p pr key ⟨host,some (NewFromPrior U key review),[]⟩ calls).host
    (Survives sections calls pr.headSHA → KeepsSections sections calls after) ∧
      ((∀ s ∈ sections, (∀ j ∈ calls, j.tool ≠ s.tool) → Seamless (trimSpace s.body)) →
        KeepsSections sections calls after → Survives sections calls pr.headSHA) := by
  intro after
  have hm : (priorMemory U key review).summaryID key WrapperToolKey = review.summaryCommentID := by
    rw [MemoryStore.summaryID,priorMemory]
    dsimp only
    rw [if_neg hid,GoMap.get_singleton]
  have hafter : after = if ∀ j ∈ calls, j.tool = [] then text host
      else renderConsolidated (ownSections key calls) pr.headSHA := by
    have htext := (postSummaries_edits hp hid hm (w := ⟨host,some (NewFromPrior U key review),[]⟩) rfl calls).2
    rw [allSections_storeSections rfl] at htext
    exact htext
  have hshown : (· ∈ ownSections key calls) = Shown calls :=
    funext fun x => propext (mem_ownSections calls x)
  rw [hafter,Survives,← hshown]
  split
  · next hall =>
    refine ⟨fun _ s hs _ => ?_,fun _ _ => .inl hall⟩
    rw [hhost]
    exact body_isInfix hs sha
  · next hall =>
    refine ⟨fun h s hs hsilent => ?_,fun hseam h => .inr fun s hs hsilent => ?_⟩
    · exact ((h.resolve_left hall) s hs hsilent).isInfix
    · exact (infix_renderConsolidated (hseam s hs hsilent) (trimSpace_head?_ne s.body)
        (trimSpace_getLast?_ne s.body) _ _).mp (h s hs hsilent)

section LostDescription

/-- A host with one comment, seen through its text. -/
def pinnedNote : Provider Bytes where
  kind := KindGitHub
  fetchPullRequest repo number _ := .ok { repoFullName := repo, number := number }
  listChangedFiles _ _ := .ok []
  postSummaryComment _ _ note := (.ok (lit "99"),note)
  updateSummaryComment _ _ body _ := (none,body)
  postInlineComments _ _ note := (([],none),note)
  resolveThread _ _ note := (none,note)
  editPullRequestBody _ _ note := (none,note)
  upsertCheckRun _ _ note := (none,note)
  diffBetween := none

def earlierSections : List Section :=
  [⟨lit "describe",lit "Adds a cache."⟩,⟨lit "review",lit "One finding."⟩]

def earlierOverview : GitHub.IssueComment := ⟨99,renderConsolidated earlierSections []⟩

/-- What the earlier run left on the pull request, read back. -/
def earlierReview : PriorReview := [earlierOverview].foldl GitHub.scanComment {}

/-- A later run in which the review speaks and the description stays silent. -/
def laterSummaries : List Section := [⟨lit "review",lit "No findings."⟩]

/-- The overview after the later run. -/
def laterOverview : Bytes :=
  (postSummaries pinnedNote examplePR exampleKey ⟨earlierOverview.body,
    some (NewFromPrior Tables.plain exampleKey earlierReview),[]⟩ laterSummaries).host

lemma earlierReview_id : earlierReview.summaryCommentID = intDecimal 99 := by
  change (List.foldl GitHub.scanThread (([] ++ earlierOverview :: []).foldl GitHub.scanComment {})
    []).summaryCommentID = _
  exact overview_read_back earlierOverview (by simp) rfl []

lemma pinnedNote_edits (id : Bytes) : EditsInPlace pinnedNote examplePR id (fun note => note) :=
  ⟨fun _ _ => rfl,fun _ _ => rfl,fun _ _ => rfl⟩

/-- The description is gone. -/
theorem description_lost : ¬ KeepsSections earlierSections laterSummaries laterOverview := by
  intro h
  have := h ⟨lit "describe",lit "Adds a cache."⟩ (by decide) (by decide)
  revert this
  decide +kernel

theorem description_decided :
    (Survives earlierSections laterSummaries examplePR.headSHA →
      KeepsSections earlierSections laterSummaries laterOverview) ∧
      ((∀ s ∈ earlierSections, (∀ j ∈ laterSummaries, j.tool ≠ s.tool) → Seamless (trimSpace s.body)) →
        KeepsSections earlierSections laterSummaries laterOverview →
          Survives earlierSections laterSummaries examplePR.headSHA) :=
  stateless_overview_keeps Tables.plain pinnedNote examplePR exampleKey (pinnedNote_edits _)
    (by rw [earlierReview_id]; exact intDecimal_ne_nil 99) earlierSections [] rfl laterSummaries

/-- A body with a closing tag of its own is read across the edge of the section that repeats its text. -/
example : lit "Fine.\n\n</details>" <:+: renderConsolidated [⟨lit "review",lit "Fine."⟩] [] ∧
    ¬ lit "Fine.\n\n</details>" <:+: trimSpace (lit "Fine.") := by
  decide +kernel

end LostDescription

end Orchestrator
