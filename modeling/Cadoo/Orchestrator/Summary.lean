import Cadoo.Orchestrator.Consolidate
import Cadoo.Orchestrator.World

/-! Posting a tool's summary as a section of the one consolidated comment. -/
namespace Orchestrator
open Bytes Vcs Findings

variable {W : Type} (p : Provider W) (pr : PullRequest) (key : PRKey)

/-- One comment per call, without a store. -/
def postLegacySummary (body : Bytes) (w : World W) : World W := (w.postSummaryComment p pr body).2

/-- The sections rendered into the overview; a failed read leaves the tool's own. -/
def readSections (tool body : Bytes) (s : Store) : List Section :=
  match s.AllSections key with
  | .ok sections => sections
  | .error _ => [⟨tool,body⟩]

/-- The id of the comment to edit, empty when there is none to be found. -/
def existingID (s : Store) : Bytes :=
  match s.SummaryID key WrapperToolKey with
  | .ok id => id
  | .error _ => []

def createOverview (rendered : Bytes) (w : World W) : World W :=
  match w.postSummaryComment p pr rendered with
  | (.error _,w) => w
  | (.ok id,w) =>
    if id ≠ [] then
      { w with posted := w.posted.map fun s => (s.PutSummaryID key WrapperToolKey id).1 }
    else w

/-- The part under `summaryMu`: the comment is edited in place, and created when there is none or
the edit fails. -/
def publishOverview (tool body : Bytes) (s : Store) (w : World W) : World W :=
  let rendered := renderConsolidated (readSections key tool body s) pr.headSHA
  let existing := existingID key s
  if existing ≠ [] then
    match w.updateSummaryComment p pr existing rendered with
    | (none,w) => w
    | (some _,w) => createOverview p pr key rendered w
  else createOverview p pr key rendered w

def postSummary (tool body : Bytes) (w : World W) : World W :=
  match w.posted with
  | none => postLegacySummary p pr body w
  | some s =>
    if tool = [] ∨ s.Enabled = false then postLegacySummary p pr body w
    else
      let s := (s.PutSection key tool body).1
      publishOverview p pr key tool body s { w with posted := some s }

section Frame
variable {α : Type} {f : Store → α} (hsection : ∀ s tool body, f (s.PutSection key tool body).1 = f s)
  (hsummary : ∀ s tool id, f (s.PutSummaryID key tool id).1 = f s) (tool body rendered : Bytes)
  (s : Store) (w : World W)

include hsummary in
lemma createOverview_frame (h : w.posted = some s) :
    ∃ s', (createOverview p pr key rendered w).posted = some s' ∧ f s' = f s := by
  unfold createOverview
  have hp : (w.postSummaryComment p pr rendered).2.posted = some s := h
  cases hres : w.postSummaryComment p pr rendered with
  | mk res v =>
    rw [hres] at hp
    cases res with
    | error => exact ⟨s,hp,rfl⟩
    | ok id =>
      dsimp only
      split
      · exact ⟨_,by rw [hp]; rfl,hsummary s _ _⟩
      · exact ⟨s,hp,rfl⟩

include hsummary in
lemma publishOverview_frame (h : w.posted = some s) :
    ∃ s', (publishOverview p pr key tool body s w).posted = some s' ∧ f s' = f s := by
  unfold publishOverview
  dsimp only
  split
  · cases hu : w.updateSummaryComment p pr (existingID key s)
        (renderConsolidated (readSections key tool body s) pr.headSHA) with
    | mk err v =>
      have hv : v.posted = some s := by
        have := World.updateSummaryComment_posted p pr w (existingID key s)
          (renderConsolidated (readSections key tool body s) pr.headSHA)
        rw [hu] at this
        exact this.trans h
      cases err with
      | none => exact ⟨s,hv,rfl⟩
      | some e => exact createOverview_frame p pr key hsummary _ s v hv
  · exact createOverview_frame p pr key hsummary _ s w h

include hsection hsummary in
/-- Whatever summary bookkeeping leaves alone in a store, posting a summary leaves alone. -/
theorem postSummary_frame :
    (postSummary p pr key tool body w).posted.map f = w.posted.map f := by
  unfold postSummary
  cases hw : w.posted with
  | none => simp [postLegacySummary,hw]
  | some s =>
    dsimp only
    split
    · simp [postLegacySummary,hw]
    · obtain ⟨s',hs',hf⟩ := publishOverview_frame p pr key hsummary tool body
        (s.PutSection key tool body).1 { w with posted := some (s.PutSection key tool body).1 } rfl
      rw [hs',Option.map_some,Option.map_some,hf,hsection]

/-- Posting a summary leaves the prior findings as they were. -/
theorem postSummary_listPosted (key' : PRKey) :
    ((postSummary p pr key tool body w).posted.map fun s => s.ListPostedFindings key') =
      w.posted.map fun s => s.ListPostedFindings key' :=
  postSummary_frame p pr key (f := fun s => s.ListPostedFindings key') (by simp) (by simp) tool body w

lemma createOverview_calls :
    (createOverview p pr key rendered w).calls = w.calls ++ [.postSummaryComment rendered] := by
  have hc : (w.postSummaryComment p pr rendered).2.calls = w.calls ++ [.postSummaryComment rendered] :=
    rfl
  unfold createOverview
  split
  · next u hu => simpa [hu] using hc
  · next id u hu => split <;> simpa [hu] using hc

lemma publishOverview_calls : ∃ cs, (publishOverview p pr key tool body s w).calls = w.calls ++ cs ∧
    ∀ c ∈ cs, c.onSummary = true := by
  unfold publishOverview
  dsimp only
  split
  · cases hu : w.updateSummaryComment p pr (existingID key s)
        (renderConsolidated (readSections key tool body s) pr.headSHA) with
    | mk err v =>
      have hv := World.updateSummaryComment_calls p pr w (existingID key s)
        (renderConsolidated (readSections key tool body s) pr.headSHA)
      rw [hu] at hv
      cases err with
      | none => exact ⟨_,hv,by simp [Call.onSummary]⟩
      | some e =>
        refine ⟨_,(createOverview_calls p pr key _ v).trans (by rw [hv,List.append_assoc]),?_⟩
        simp [Call.onSummary]
  · exact ⟨_,createOverview_calls p pr key _ w,by simp [Call.onSummary]⟩

/-- Posting a summary writes to summary comments only. -/
theorem postSummary_calls : ∃ cs, (postSummary p pr key tool body w).calls = w.calls ++ cs ∧
    ∀ c ∈ cs, c.onSummary = true := by
  have hlegacy : ∃ cs, (postLegacySummary p pr body w).calls = w.calls ++ cs ∧
      ∀ c ∈ cs, c.onSummary = true :=
    ⟨[.postSummaryComment body],rfl,by simp [Call.onSummary]⟩
  unfold postSummary
  split
  · exact hlegacy
  · split
    · exact hlegacy
    · exact publishOverview_calls p pr key tool body _ _

end Frame

end Orchestrator
