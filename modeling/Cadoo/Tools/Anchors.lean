import Cadoo.Tools.Improve
import Cadoo.Tools.Review
import Cadoo.Vcs.DiffIndex
import Cadoo.Vcs.GitHub

/-! Where the comments of the two tools are anchored. The tools look at the first line of a comment, the
adapters anchor at the last, so the lines between are nobody's concern. -/
namespace GitLab
open Bytes Vcs
variable {W : Type} (api : API W) (pr : PullRequest) (refs : DiffRefs) (idx : DiffIndex)

/-- The same endpoints, with the position of every discussion written down. -/
def recording : API (W × List PositionOptions) where
  getMergeRequest repo number w := api.getMergeRequest repo number w.1
  listMergeRequestDiffs repo number w := api.listMergeRequestDiffs repo number w.1
  createMergeRequestDiscussion repo number body pos w :=
    let r := api.createMergeRequestDiscussion repo number body pos w.1
    (r.1,(r.2,w.2 ++ [pos]))
  createMergeRequestNote repo number body w :=
    let r := api.createMergeRequestNote repo number body w.1
    (r.1,(r.2,w.2))

lemma recording_discussion (repo : Bytes) (number : ℤ) (body : Bytes) (pos : PositionOptions)
    (w : W × List PositionOptions) :
    (recording api).createMergeRequestDiscussion repo number body pos w =
      ((api.createMergeRequestDiscussion repo number body pos w.1).1,
        ((api.createMergeRequestDiscussion repo number body pos w.1).2,w.2 ++ [pos])) := rfl

/-- The positions a call of the adapter asks for. -/
def positions (cs : List InlineComment) (w : W) : List PositionOptions :=
  (postEach (recording api) pr refs idx cs (w,[])).2.2

/-- The line a comment is looked up by. -/
def targetLine (c : InlineComment) : ℤ := if c.lineEnd = 0 then c.lineStart else c.lineEnd

def placed (c : InlineComment) : Option PositionOptions :=
  (lookup idx c.file (targetLine c)).map (position refs)

lemma postOne_recording (c : InlineComment) (w : W × List PositionOptions) :
    (postOne (recording api) pr refs idx c w).2.2 = w.2 ++ (placed refs idx c).toList := by
  rw [postOne,placed,targetLine]
  dsimp only
  cases lookup idx c.file (if c.lineEnd = 0 then c.lineStart else c.lineEnd) with
  | none => exact (List.append_nil w.2).symm
  | some anchor =>
    generalize formatSeverity c.severity ++ c.body = body
    dsimp only
    rw [recording_discussion]
    cases (api.createMergeRequestDiscussion pr.repoFullName pr.number body (position refs anchor) w.1).1 <;> rfl

/-- The comments that are found in the index get a position, in their order. -/
theorem positions_eq (cs : List InlineComment) (w : W) :
    positions api pr refs idx cs w = cs.filterMap (placed refs idx) := by
  suffices h : ∀ w : W × List PositionOptions, (postEach (recording api) pr refs idx cs w).2.2 =
      w.2 ++ cs.filterMap (placed refs idx) from h (w,[])
  induction cs with
  | nil => exact fun w => (List.append_nil w.2).symm
  | cons c cs ih =>
    intro w
    rw [postEach]
    dsimp only
    rw [ih,postOne_recording,List.append_assoc]
    cases hp : placed refs idx c with
    | none => rw [List.filterMap_cons_none hp,Option.toList_none,List.nil_append]
    | some p => rw [List.filterMap_cons_some hp]; rfl

end GitLab

namespace Tools
open Bytes Utf8 Vcs UnifiedDiff GitLab

section ChangedMap

/-- A file of a diff as the providers list it. -/
def fileChange (d : FileDiff) : FileChange :=
  { path := d.path, prevPath := d.oldPath, patch := d.patch.render }

/-- The numbers of the added lines of a file, in the last patch with its path. -/
def addedLines (ds : List FileDiff) (file : Bytes) : List ℕ :=
  match ds.findRev? (fun d => d.path = file) with
  | some d => d.patch.added
  | none => []

def Added (ds : List FileDiff) (file : Bytes) (n : ℤ) : Prop := ∃ m ∈ addedLines ds file, n = (m : ℤ)

instance (ds : List FileDiff) (file : Bytes) : DecidablePred (Added ds file) := fun n =>
  inferInstanceAs (Decidable (∃ m ∈ addedLines ds file, n = (m : ℤ)))

lemma Added.pos {ds : List FileDiff} {file : Bytes} {n : ℤ} (h : Added ds file n) : 0 < n := by
  obtain ⟨m,hm,rfl⟩ := h
  rw [addedLines] at hm
  split at hm
  · have hpos := Patch.pos_of_mem_added hm
    omega
  · cases hm

lemma get_BuildChangedMap (ds : List FileDiff) (file : Bytes) :
    (BuildChangedMap (ds.map fileChange)).get file =
      match ds.findRev? (fun d => d.path = file) with
      | some d => changedLineRanges d.patch.render
      | none => [] := by
  suffices h : ∀ m : GoMap Bytes (List (ℤ × ℤ)), GoMap.get ((ds.map fileChange).foldl
      (fun m f => m.insert f.path (changedLineRanges f.patch)) m) file =
      match ds.findRev? (fun d => d.path = file) with
      | some d => changedLineRanges d.patch.render
      | none => m.get file from h ∅
  induction ds with
  | nil => exact fun m => rfl
  | cons d ds ih =>
    intro m
    rw [List.map_cons,List.foldl_cons,ih,List.findRev?]
    cases ds.findRev? (fun d => d.path = file) with
    | some d' => rfl
    | none =>
      rw [GoMap.get_insert_eq]
      by_cases h : d.path = file
      · simp [fileChange,h]
      · simp [fileChange,h,Ne.symm h]

/-- The filter accepts the added lines of the file, and line 0. -/
theorem inChangedLines_changedMap (ds : List FileDiff) (file : Bytes) (n : ℤ) :
    InChangedLines ((BuildChangedMap (ds.map fileChange)).get file) n = true ↔ n = 0 ∨ Added ds file n := by
  rw [get_BuildChangedMap,Added,addedLines]
  cases ds.findRev? (fun d => d.path = file) with
  | none => simp [InChangedLines]
  | some d => simp [inChangedLines_render]

end ChangedMap

variable (U : Tables)

/-- The comments that come out of the two tools, whatever the model answers. -/
inductive Emitted (files : List FileChange) : InlineComment → Prop
  | review {findings cfg c} (h : c ∈ Review.convertFindings U findings cfg (BuildChangedMap files)) :
    Emitted files c
  | improve {answer res c} (h : Improve.Run files answer = .ok res) (hc : c ∈ res.inlineComments) :
    Emitted files c

variable {U}

lemma Emitted.first_changed {ds : List FileDiff} {c : InlineComment}
    (h : Emitted U (ds.map fileChange) c) (hpos : 0 < c.lineStart) : Added ds c.file c.lineStart := by
  have hin : InChangedLines ((BuildChangedMap (ds.map fileChange)).get c.file) c.lineStart = true := by
    cases h with
    | review h => exact Review.mem_convertFindings h
    | @improve answer res c h hc =>
      cases answer with
      | error err => cases h
      | ok out =>
        obtain rfl := Except.ok.inj h
        exact Improve.mem_inlines hc
  exact ((inChangedLines_changedMap ds c.file c.lineStart).mp hin).resolve_left (by omega)

section Anchored

/-- The lines of the draft are added lines. -/
def OnGitHub (packed : List FileDiff) (c : InlineComment) : Prop :=
  Added packed (GitHub.draft c).path (GitHub.draft c).line ∧
    ∀ s ∈ (GitHub.draft c).startLine, Added packed (GitHub.draft c).path s

instance (packed : List FileDiff) : DecidablePred (OnGitHub packed) := fun _ =>
  inferInstanceAs (Decidable (_ ∧ _))

variable {W : Type} (api : API W) (pr : PullRequest) (refs : DiffRefs) (packed listed : List FileDiff)

/-- The comment gets a position, on an added line. -/
def OnGitLab (c : InlineComment) (w : W) : Prop :=
  ∃ p ∈ positions api pr refs (indexDiffs (listed.map fun d => some d.mergeRequestDiff)) [c] w,
    ∃ n ∈ p.newLine, Added packed c.file n

instance (c : InlineComment) : DecidablePred (OnGitLab api pr refs packed listed c) := fun _ =>
  List.decidableBEx _ _

lemma onGitHub_iff {c : InlineComment} (hpos : 0 < c.lineStart) (hfirst : Added packed c.file c.lineStart) :
    OnGitHub packed c ↔ c.lineEnd ≤ c.lineStart ∨ Added packed c.file c.lineEnd := by
  by_cases hrange : c.lineStart < c.lineEnd
  · have hdraft : GitHub.draft c = ⟨c.file,GitHub.formatSeverity c.severity ++ c.body,lit "RIGHT",
        c.lineEnd,some c.lineStart,some (lit "RIGHT")⟩ := if_pos ⟨hpos,hrange⟩
    rw [OnGitHub,hdraft,or_iff_right (by omega)]
    constructor
    · exact fun h => h.1
    · intro h
      refine ⟨h,fun s hs => ?_⟩
      obtain rfl := Option.some.inj hs
      exact hfirst
  · have hdraft : GitHub.draft c = ⟨c.file,GitHub.formatSeverity c.severity ++ c.body,lit "RIGHT",
        c.lineStart,none,none⟩ := by
      rw [GitHub.draft,if_neg (fun h => hrange h.2),if_pos hpos]
    rw [OnGitHub,hdraft]
    exact iff_of_true ⟨hfirst,fun s hs => by cases hs⟩ (.inl (by omega))

lemma onGitLab_iff {c : InlineComment} (w : W) : OnGitLab api pr refs packed listed c w ↔
    Added packed c.file (targetLine c) ∧ ∃ d ∈ listed, c.file = d.path ∧ Reached d.patch (targetLine c) := by
  rw [OnGitLab,positions_eq]
  generalize hn : targetLine c = n
  by_cases hneg : n ≤ 0
  · refine iff_of_false ?_ fun h => ?_
    · rintro ⟨p,hp,-⟩
      simp [placed,lookup,hn,hneg] at hp
    · have := h.1.pos
      omega
  · obtain ⟨hsome,hline⟩ := lookup_indexDiffs listed c.file (n := n) (by omega)
    have hpos : 0 < n := by omega
    rw [← hsome,List.filterMap_cons,List.filterMap_nil,placed,hn]
    cases hl : lookup (indexDiffs (listed.map fun d => some d.mergeRequestDiff)) c.file n with
    | none => simp
    | some anchor =>
      have hanchor := hline anchor hl
      have hnew : (position refs anchor).newLine = some n := by
        rw [position,hanchor,if_pos hpos]
      simp [hnew]

lemma added_targetLine {c : InlineComment} (hfirst : Added packed c.file c.lineStart) :
    Added packed c.file (targetLine c) ↔ c.lineEnd = 0 ∨ Added packed c.file c.lineEnd := by
  rw [targetLine]
  split
  · next h => exact iff_of_true hfirst (.inl h)
  · next h => exact (or_iff_right h).symm

/-- A comment of either tool is anchored at added lines on GitHub just when its last line is one, if it has
more than one; on GitLab just when its last line is one, if it has any, and the index reaches the line it is
looked up by. -/
theorem anchored_iff {c : InlineComment} (h : Emitted U (packed.map fileChange) c) (hpos : 0 < c.lineStart)
    (w : W) :
    (OnGitHub packed c ↔ c.lineEnd ≤ c.lineStart ∨ Added packed c.file c.lineEnd) ∧
      (OnGitLab api pr refs packed listed c w ↔ (c.lineEnd = 0 ∨ Added packed c.file c.lineEnd) ∧
        ∃ d ∈ listed, c.file = d.path ∧ Reached d.patch (targetLine c)) := by
  have hfirst := h.first_changed hpos
  rw [onGitLab_iff,added_targetLine packed hfirst]
  exact ⟨onGitHub_iff packed hpos hfirst,Iff.rfl⟩

end Anchored

section Example

/-- One line inserted between two others. -/
def insertedLine : FileDiff where
  newPath := lit "cart.go"
  oldPath := lit "cart.go"
  named := .inl (by decide)
  patch := {
    hunks := [{
      old := { start := 1, count := some 2 }
      new := { start := 1, count := some 3 }
      heading := ⟨[],by decide⟩
      body := [.context ⟨lit "a := 1",by decide⟩,.added ⟨lit "b := 2",by decide⟩,
        .context ⟨lit "c := 3",by decide⟩]
      old_size := rfl
      new_size := rfl
      old_pos := by decide
      new_pos := by decide
      old_fits := by decide
      new_fits := by decide }]
    preamble_plain := no_preamble_plain
    increasing := List.pairwise_singleton _ _ }

/-- A merge request host that accepts everything. -/
def acceptingHost : API Unit where
  getMergeRequest _ _ _ := .ok ⟨lit "b0",lit "b0",lit "a1"⟩
  listMergeRequestDiffs _ _ _ := .ok [some insertedLine.mergeRequestDiff]
  createMergeRequestDiscussion _ _ _ _ _ := (.ok (some (lit "d1")),())
  createMergeRequestNote _ _ _ _ := (none,())

/-- What the review tool makes of a finding on lines 2 to `last`. -/
def reviewed (last : ℤ) : List InlineComment :=
  Review.convertFindings Tables.plain [⟨lit "cart.go",2,last,lit "warn",[],lit "Unused variable."⟩] {}
    (BuildChangedMap ([insertedLine].map fileChange))

theorem last_line_unchanged : ∃ c ∈ reviewed 3, 0 < c.lineStart ∧ ¬ OnGitHub [insertedLine] c ∧
    ¬ OnGitLab acceptingHost Orchestrator.examplePR ⟨lit "b0",lit "b0",lit "a1"⟩ [insertedLine] [insertedLine]
      c () := by
  decide +kernel

theorem single_line_anchored : ∃ c ∈ reviewed 2, OnGitHub [insertedLine] c ∧
    OnGitLab acceptingHost Orchestrator.examplePR ⟨lit "b0",lit "b0",lit "a1"⟩ [insertedLine] [insertedLine]
      c () := by
  have hc : reviewed 2 = [⟨lit "cart.go",2,2,lit "Unused variable.",lit "warn"⟩] := by decide +kernel
  have hmem : (⟨lit "cart.go",2,2,lit "Unused variable.",lit "warn"⟩ : InlineComment) ∈ reviewed 2 := by
    rw [hc]
    exact List.mem_singleton_self _
  have hiff := anchored_iff acceptingHost Orchestrator.examplePR ⟨lit "b0",lit "b0",lit "a1"⟩ [insertedLine]
    [insertedLine] (.review hmem) (by decide) ()
  have hadded : Added [insertedLine] (lit "cart.go") 2 := by decide +kernel
  refine ⟨_,hmem,hiff.1.mpr (.inl (Int.le_refl 2)),hiff.2.mpr ⟨.inr hadded,_,List.mem_singleton_self _,rfl,?_⟩⟩
  refine reached_of_mem_added (fun k hk t ht => ?_) (by decide)
  obtain rfl := List.mem_singleton.mp hk
  obtain rfl : t = ⟨lit "b := 2",by decide⟩ := by simpa using ht
  decide

end Example

end Tools
