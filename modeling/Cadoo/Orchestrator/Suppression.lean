import Cadoo.Orchestrator.Inline

/-! Suppression against staleness. A comment is held back because a record stands for it, by key or
by title; the same run resolves the threads whose keys no comment repeats. The two relations differ,
and a reworded finding falls between them. -/
namespace Orchestrator
open Bytes Utf8 Vcs Findings

variable (U : Tables) (m : MemoryStore) (key : PRKey) (tool : Bytes)

/-- The record for whose sake a comment is not posted: the first that stands for it. -/
def suppressor (c : InlineComment) : Option FindingRec :=
  if tool = [] then none else (m.findings.get key).find? fun r => r.matchesComment U tool c

lemma suppressor_eq_some {c : InlineComment} {r : FindingRec}
    (h : suppressor U m key tool c = some r) :
    tool ≠ [] ∧ r ∈ m.findings.get key ∧ r.matchesComment U tool c = true := by
  unfold suppressor at h
  split at h
  · simp at h
  · next ht =>
    have hm := List.find?_some h
    exact ⟨ht,List.mem_of_find?_eq_some h,hm⟩

lemma known_iff_suppressor (pool : Option Database) (c : InlineComment) (ht : tool ≠ []) :
    known U (some ⟨pool,some m⟩) key tool c = (suppressor U m key tool c).isSome := by
  rw [known,suppressor,if_neg ht,List.isSome_find?]
  rfl

variable {W : Type} (p : Provider W) (pr : PullRequest) (host : W)

/-- One full-review run over an in-memory store. -/
def fullReview (comments : List InlineComment) : World W :=
  postInline U p pr key tool comments [] false (.ofMemory host m)

lemma priorFindings_mem (pool : Option Database) (ht : tool ≠ []) :
    priorFindings (some ⟨pool,some m⟩) key tool = (m.findings.get key).map FindingRec.posted := by
  rw [priorFindings,if_neg ht]
  rfl

/-- A full review resolves the ids of this tool's records whose key no comment repeats. -/
theorem mem_resolved_fullReview {comments : List InlineComment} {id : Bytes} :
    id ∈ resolvedIDs (fullReview U m key tool p pr host comments).calls ↔
      tool ≠ [] ∧ id ≠ [] ∧ ∃ r ∈ m.findings.get key, r.tool = tool ∧ r.externalID = id ∧
        priorKey U r.posted ∉ comments.map (StructuralKey U tool) := by
  rw [fullReview,postInline_resolved]
  change id ∈ [] ++ _ ↔ _
  simp only [List.nil_append,List.mem_map (f := PostedFinding.externalCommentID),mem_stalePriors]
  constructor
  · rintro ⟨q,⟨ht,hq,hqt,hne,-,hk⟩,rfl⟩
    rw [World.ofMemory,priorFindings_mem m key tool none ht] at hq
    obtain ⟨r,hr,rfl⟩ := List.mem_map.mp hq
    exact ⟨ht,hne,r,hr,hqt,rfl,hk⟩
  · rintro ⟨ht,hne,r,hr,hrt,rfl,hk⟩
    refine ⟨r.posted,⟨ht,?_,hrt,hne,by simp,hk⟩,rfl⟩
    rw [World.ofMemory,priorFindings_mem m key tool none ht]
    exact List.mem_map_of_mem hr

/-- No comment held back for an open record sees that record's thread resolved. -/
def KeepsSuppressors (comments : List InlineComment) (calls : List Call) : Prop :=
  ∀ c ∈ comments, ∀ r, suppressor U m key tool c = some r → r.resolved = false →
    r.externalID ∉ resolvedIDs calls

/-- A comment is visible after a run: it went out itself or by an equal key, or a record stands for
it whose thread the run leaves as it was. -/
def Represented (comments : List InlineComment) (calls : List Call) (c : InlineComment) : Prop :=
  (∃ d ∈ comments, StructuralKey U tool d = StructuralKey U tool c ∧
    wireComment U tool d ∈ sentComments calls) ∨
  ∃ r, suppressor U m key tool c = some r ∧ (r.resolved = true ∨ r.externalID ∉ resolvedIDs calls)

/-- Every open record that holds a comment back is repeated by key, and so is every record of the
tool with the same thread. -/
def RepeatsSuppressors (comments : List InlineComment) : Prop :=
  ∀ c ∈ comments, ∀ r, suppressor U m key tool c = some r → r.resolved = false →
    r.externalID ≠ [] → ∀ q ∈ m.findings.get key, q.tool = tool → q.externalID = r.externalID →
      priorKey U q.posted ∈ comments.map (StructuralKey U tool)

lemma represented_of_keeps {comments : List InlineComment}
    (h : KeepsSuppressors U m key tool comments (fullReview U m key tool p pr host comments).calls)
    {c : InlineComment} (hc : c ∈ comments) :
    Represented U m key tool comments (fullReview U m key tool p pr host comments).calls c := by
  have hsent : sentComments (fullReview U m key tool p pr host comments).calls =
      (newComments U (some { mem := some m }) key tool comments).map (wireComment U tool) := by
    rw [fullReview,postInline_sent]
    rfl
  cases hr : suppressor U m key tool c with
  | some r =>
    refine .inr ⟨r,hr,?_⟩
    cases hres : r.resolved with
    | true => exact .inl rfl
    | false => exact .inr (h c hc r hr hres)
  | none =>
    left
    rw [hsent]
    by_cases ht : tool = []
    · refine ⟨c,hc,rfl,List.mem_map_of_mem ?_⟩
      rw [newComments,if_pos ht]
      exact hc
    · have hk : known U (some { mem := some m }) key tool c = false := by
        rw [known_iff_suppressor U m key tool none c ht,hr]
        rfl
      rcases filterNew_covers U (known U (some { mem := some m }) key tool) tool [] hc hk
        with hs | ⟨d,hd,hdk⟩
      · simp at hs
      · refine ⟨d,(mem_filterNew U _ tool hd).1,hdk,List.mem_map_of_mem ?_⟩
        rw [newComments,if_neg ht]
        exact hd

/-- A full review keeps every comment visible exactly when the records that hold comments back are
also repeated by key. -/
theorem fullReview_represents_iff (comments : List InlineComment) :
    (KeepsSuppressors U m key tool comments (fullReview U m key tool p pr host comments).calls ∧
      ∀ c ∈ comments,
        Represented U m key tool comments (fullReview U m key tool p pr host comments).calls c) ↔
    RepeatsSuppressors U m key tool comments := by
  constructor
  · rintro ⟨h,-⟩ c hc r hr hres hne q hq hqt hid
    by_contra hk
    apply h c hc r hr hres
    obtain ⟨ht,-,-⟩ := suppressor_eq_some U m key tool hr
    exact (mem_resolved_fullReview U m key tool p pr host).mpr ⟨ht,hne,q,hq,hqt,hid,hk⟩
  · intro h
    have hkeeps : KeepsSuppressors U m key tool comments
        (fullReview U m key tool p pr host comments).calls := by
      intro c hc r hr hres hm
      obtain ⟨-,hne,q,hq,hqt,hid,hk⟩ := (mem_resolved_fullReview U m key tool p pr host).mp hm
      exact hk (h c hc r hr hres hne q hq hqt hid)
    exact ⟨hkeeps,fun c hc => represented_of_keeps U m key tool p pr host hkeeps hc⟩

section Reworded

def unclosedRows : InlineComment where
  file := lit "db.go"
  lineStart := 12
  lineEnd := 12
  body := lit "**Deferred rows.Close() silently discards errors**"
  severity := lit "warn"

/-- The same finding in other words. -/
def unclosedRowsReworded : InlineComment :=
  { unclosedRows with body := lit "**Deferred rows.Close() silently discards close errors**" }

def unclosedRowsStore : MemoryStore :=
  ({} : MemoryStore).record Tables.plain exampleKey (lit "review") (lit "thread-1") unclosedRows

/-- The reworded finding is held back for the open thread, the run resolves that thread, and
nothing is posted. -/
theorem reworded_finding_loses_thread :
    let calls := (fullReview Tables.plain unclosedRowsStore exampleKey (lit "review")
      (quietProvider examplePR) examplePR () [unclosedRowsReworded]).calls
    ¬ (KeepsSuppressors Tables.plain unclosedRowsStore exampleKey (lit "review")
        [unclosedRowsReworded] calls ∧
      ∀ c ∈ [unclosedRowsReworded], Represented Tables.plain unclosedRowsStore exampleKey
        (lit "review") [unclosedRowsReworded] calls c) := by
  rintro calls ⟨h,-⟩
  exact h unclosedRowsReworded (by simp) (newRec Tables.plain (lit "review") (lit "thread-1")
    unclosedRows) (by decide +kernel) rfl (by decide +kernel)

end Reworded

end Orchestrator
