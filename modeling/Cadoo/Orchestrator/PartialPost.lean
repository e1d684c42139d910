import Cadoo.Orchestrator.Suppression
import Cadoo.Vcs.GitLab

/-! Inline comments that do not reach the merge request. The GitLab adapter answers with a ref for
every comment it tried, and the dispatcher records every ref, so a comment whose creation failed is
known from then on. -/
namespace Orchestrator
open Bytes Utf8 Vcs Findings

variable (U : Tables) {W : Type} (api : GitLab.API W) (other : Provider W) (pr : PullRequest)
  (key : PRKey) (tool : Bytes) (comments : List InlineComment) (m : MemoryStore) (host : W)

/-- The new comments of a run over a memory store. -/
def freshComments : List InlineComment := newComments U (some { mem := some m }) key tool comments

/-- Those of them whose discussion or note was created. -/
def createdComments : List InlineComment :=
  let delta := freshComments U key tool comments m
  let flags := GitLab.creations api pr (delta.map (wireComment U tool)) host
  ((delta.zip flags).filter Prod.snd).map Prod.fst

/-- A comment is on the merge request, itself or by another one created in the same run. -/
def Reached (c : InlineComment) : Prop :=
  c ∈ createdComments U api pr key tool comments m host ∨
    ∃ d ∈ createdComments U api pr key tool comments m host,
      (newRec U tool [] d).matchesComment U tool c = true

/-- After a run only comments that reached the merge request are known; the others are sent again by
any later run that reports them. -/
def RecordsOnlyReached (posted : Option Store) : Prop :=
  ∀ c ∈ freshComments U key tool comments m,
    (known U posted key tool c = true → Reached U api pr key tool comments m host c) ∧
    (¬ Reached U api pr key tool comments m host c → ∀ batch, c ∈ batch →
      ∃ d ∈ newComments U posted key tool batch, StructuralKey U tool d = StructuralKey U tool c)

/-- The comments that got a record of their own all leave the failed ones unknown. -/
def FailuresUnknown : Prop :=
  ∀ c ∈ freshComments U key tool comments m, Reached U api pr key tool comments m host c ∨
    ∀ d ∈ storedAnew U tool ((m.findings.get key).map FindingRec.fingerprint)
      (freshComments U key tool comments m), (newRec U tool [] d).matchesComment U tool c = false

lemma recorded_gitlab : (recorded U (GitLab.adapter api other) pr key tool comments
      (some { mem := some m }) host).map Prod.snd =
    if (GitLab.prepare api pr host).isOk then freshComments U key tool comments m else [] := by
  have hlen := GitLab.PostInlineComments_refs api pr
    ((freshComments U key tool comments m).map (wireComment U tool)) host
  rw [List.length_map] at hlen
  rw [recorded]
  simp only [List.map_map]
  change ((GitLab.PostInlineComments api pr ((freshComments U key tool comments m).map
    (wireComment U tool)) host).1.1.zip (freshComments U key tool comments m)).map Prod.snd = _
  split at hlen
  · next h =>
    rw [List.map_snd_zip (by omega),if_pos h]
  · next h =>
    rw [List.length_eq_zero_iff.mp hlen,if_neg h]
    rfl

variable {tool}

/-- After a run a new comment is known exactly when the loop was entered and a comment with a record
of its own stands for it. -/
lemma known_after_gitlab (ht : tool ≠ []) (changeSet : List Bytes) (incrementalRun : Bool)
    {c : InlineComment} (hc : c ∈ freshComments U key tool comments m) :
    known U (postInline U (GitLab.adapter api other) pr key tool comments changeSet incrementalRun
      (.ofMemory host m)).posted key tool c = true ↔
    (GitLab.prepare api pr host).isOk = true ∧
      ∃ d ∈ storedAnew U tool ((m.findings.get key).map FindingRec.fingerprint)
        (freshComments U key tool comments m), (newRec U tool [] d).matchesComment U tool c = true := by
  obtain ⟨m',hm',hrec⟩ := postInline_records U (GitLab.adapter api other) pr key tool comments
    changeSet incrementalRun ht none m host []
  have hold : (m.findings.get key).any (fun r => r.matchesComment U tool c) = false := by
    rw [freshComments,newComments,if_neg ht] at hc
    exact (mem_filterNew U _ tool hc).2.1
  rw [World.ofMemory,hm']
  change (m'.findings.get key).any _ = true ↔ _
  rw [hrec,recordBatch_any,hold,recorded_gitlab,Bool.false_or,List.any_eq_true]
  split
  · next h => simp [h]
  · next h => simp [h,storedAnew]

/-- Only findings that reached the merge request are recorded, exactly when the adapter gives up
before its loop or no failed comment is stood for by one that got a record. -/
theorem gitlab_records_reached_iff (ht : tool ≠ []) (changeSet : List Bytes)
    (incrementalRun : Bool) :
    RecordsOnlyReached U api pr key tool comments m host (postInline U (GitLab.adapter api other) pr
      key tool comments changeSet incrementalRun (.ofMemory host m)).posted ↔
    (GitLab.prepare api pr host).isOk = false ∨ FailuresUnknown U api pr key tool comments m host := by
  have hknown := fun c => known_after_gitlab U api other pr key comments m host ht changeSet
    incrementalRun (c := c)
  generalize (postInline U (GitLab.adapter api other) pr key tool comments changeSet incrementalRun
    (.ofMemory host m)).posted = posted at hknown
  constructor
  · intro h
    cases hok : (GitLab.prepare api pr host).isOk with
    | false => exact .inl rfl
    | true =>
      right
      intro c hc
      by_cases hr : Reached U api pr key tool comments m host c
      · exact .inl hr
      · right
        intro d hd
        by_contra hm
        exact hr ((h c hc).1 ((hknown c hc).mpr ⟨hok,d,hd,by simpa using hm⟩))
  · intro h c hc
    have hfirst : known U posted key tool c = true → Reached U api pr key tool comments m host c := by
      intro hk
      obtain ⟨hok,d,hd,hm⟩ := (hknown c hc).mp hk
      rcases h with h | h
      · simp [h] at hok
      · rcases h c hc with hr | hno
        · exact hr
        · simp [hno d hd] at hm
    refine ⟨hfirst,fun hr batch hb => ?_⟩
    have hk : known U posted key tool c = false := by
      by_contra hk
      exact hr (hfirst (by simpa using hk))
    rcases filterNew_covers U (known U posted key tool) tool [] hb hk with h | h
    · simp at h
    · rw [newComments,if_neg ht]
      exact h

section FailingNotes

/-- A server on which no note can be created, and whose merge request changes no line. -/
def failingNotes : GitLab.API Unit where
  getMergeRequest _ _ _ := .ok ⟨lit "b0",lit "b0",lit "h1"⟩
  listMergeRequestDiffs _ _ _ := .ok []
  createMergeRequestDiscussion _ _ _ _ _ := (.ok none,())
  createMergeRequestNote _ _ _ _ := (some (lit "500"),())

def failedRun : World Unit := postInline Tables.plain
  (GitLab.adapter failingNotes (quietProvider examplePR)) examplePR exampleKey (lit "review")
  [unclosedRows] [] false (.ofMemory () {})

/-- The comment never reached the merge request, yet it is known after the run. -/
theorem failed_note_recorded : ¬ RecordsOnlyReached Tables.plain failingNotes examplePR exampleKey
    (lit "review") [unclosedRows] {} () failedRun.posted := by
  intro h
  have hnone : createdComments Tables.plain failingNotes examplePR exampleKey (lit "review")
      [unclosedRows] {} () = [] := by
    decide +kernel
  have hr := (h unclosedRows (by decide +kernel)).1 (by decide +kernel)
  simp [Reached,hnone] at hr

theorem failed_note_decided : RecordsOnlyReached Tables.plain failingNotes examplePR exampleKey
    (lit "review") [unclosedRows] {} () failedRun.posted ↔
      (GitLab.prepare failingNotes examplePR ()).isOk = false ∨
        FailuresUnknown Tables.plain failingNotes examplePR exampleKey (lit "review")
          [unclosedRows] {} () :=
  gitlab_records_reached_iff Tables.plain failingNotes (quietProvider examplePR) examplePR exampleKey
    [unclosedRows] {} () (by decide) [] false

end FailingNotes

end Orchestrator
