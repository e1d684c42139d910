import Cadoo.Lib.GoPath
import Cadoo.ReleaseDocs.Marker
import Cadoo.ReleaseDocs.Types

/-! The three publishers, and when each of them makes a writing call. -/
namespace ReleaseDocs
open Bytes Vcs

inductive PublishError where
  | vcs (err : Err)
  | noTagPublisher (tag : Bytes) (kind : Kind)
  | upsertFile (path : Bytes) (err : Err)
  deriving DecidableEq

/-- The content of the first artifact of a kind, empty for none. -/
def firstContent (kind : ArtifactKind) (arts : List Artifact) : Bytes :=
  match arts.find? (·.kind = kind) with
  | some a => a.content
  | none => []

/-- No writing call was made on behalf of a target. -/
def Unwritten {W : Type} (t : PublishTarget) (w : World W) : Prop := ∀ c, (t,c) ∉ w.writes

instance {W : Type} (t : PublishTarget) (w : World W) : Decidable (Unwritten t w) :=
  decidable_of_iff (t ∉ w.writes.map Prod.fst) (by simp [Unwritten])

/-- What was written between two states is on behalf of one target, and is nothing just when `idle`. -/
def Adds {W : Type} (t : PublishTarget) (idle : Prop) (w w' : World W) : Prop :=
  ∃ ws, w'.writes = w.writes ++ ws ∧ (∀ e ∈ ws, e.1 = t) ∧ (ws = [] ↔ idle)

namespace Adds
variable {W : Type} {t : PublishTarget} {idle : Prop} {w w' w'' : World W}

lemma nothing (h : idle) (hw : w'.writes = w.writes) : Adds t idle w w' :=
  ⟨[],by simp [hw],by simp,by simp [h]⟩

lemma issued {c : Write} (h : ¬ idle) (hw : w'.writes = w.writes ++ [(t,c)]) : Adds t idle w w' :=
  ⟨[(t,c)],hw,by simp,by simp [h]⟩

lemma more {idle' : Prop} (h : ¬ idle) (hw : Adds t idle w w') (hw' : Adds t idle' w' w'') :
    Adds t idle w w'' := by
  obtain ⟨ws,hws,ht,hidle⟩ := hw
  obtain ⟨ws',hws',ht',-⟩ := hw'
  refine ⟨ws ++ ws',by rw [hws',hws,List.append_assoc],?_,?_⟩
  · intro e he
    rcases List.mem_append.mp he with he | he
    · exact ht e he
    · exact ht' e he
  · refine iff_of_false (fun hnil => h (hidle.mp ?_)) h
    exact (List.append_eq_nil_iff.mp hnil).1

/-- The target is unwritten after if it was before and the publisher had nothing to do. -/
lemma unwritten (h : Adds t idle w w') : Unwritten t w' ↔ Unwritten t w ∧ idle := by
  obtain ⟨ws,hws,ht,hidle⟩ := h
  rw [← hidle]
  simp only [Unwritten,hws,List.mem_append,not_or]
  refine ⟨fun h => ⟨fun c => (h c).1,?_⟩,fun h c => ⟨h.1 c,by simp [h.2]⟩⟩
  refine List.eq_nil_iff_forall_not_mem.mpr fun e he => (h e.2).2 ?_
  rw [← ht e he]
  exact he

/-- What one publisher does leaves the other targets unwritten. -/
lemma unwritten_ne {t' : PublishTarget} (h : Adds t idle w w') (hne : t' ≠ t) :
    Unwritten t' w' ↔ Unwritten t' w := by
  obtain ⟨ws,hws,ht,-⟩ := h
  simp only [Unwritten,hws,List.mem_append,not_or]
  exact ⟨fun h c => (h c).1,fun h c => ⟨h c,fun hc => hne (ht _ hc)⟩⟩

lemma congr {idle' : Prop} (h : idle ↔ idle') (hw : Adds t idle w w') : Adds t idle' w w' := by
  rwa [← propext h]

end Adds

variable {W : Type} (rc : ReleaseContext W) (arts : List Artifact)

namespace ReleaseBody

/-- The changed body sent to the release, by its tag when it has no number. -/
def update (rp : ReleasePublisher W) (rel : Release) (newBody : Bytes) (w : World W) :
    Option PublishError × World W :=
  if rel.id = 0 ∧ rel.tagName ≠ [] then
    match rc.provider.updateReleaseBodyByTag with
    | none => (some (.noTagPublisher rel.tagName rc.provider.kind),w)
    | some updateByTag =>
      let (err,w) := w.issue .releaseBody (.updateReleaseBodyByTag rc.repo rel.tagName newBody)
        (updateByTag rc.repo rel.tagName newBody)
      (err.map .vcs,w)
  else
    let (err,w) := w.issue .releaseBody (.updateReleaseBody rc.repo rel.id newBody)
      (rp.updateReleaseBody rc.repo rel.id newBody)
    (err.map .vcs,w)

def Publish (w : World W) : Option PublishError × World W :=
  match rc.provider.releasePublisher with
  | none => (none,w)
  | some rp =>
    let sec := firstContent .releaseNotes arts
    if sec = [] then (none,w)
    else
      match rp.getReleaseByTag rc.repo rc.toRef w.host with
      | .error err => (some (.vcs err),w)
      | .ok rel =>
        let newBody := SpliceReleaseBody rel.body sec
        if newBody = rel.body then (none,w) else update rc rp rel newBody w

/-- A release number is missing, and the provider cannot go by the tag. -/
def Unreachable (rel : Release) : Prop :=
  rel.id = 0 ∧ rel.tagName ≠ [] ∧ rc.provider.updateReleaseBodyByTag = none

/-- The provider refuses the changed body, or it cannot be sent. -/
def Refused (rp : ReleasePublisher W) (rel : Release) (newBody : Bytes) (host : W) : Prop :=
  if rel.id = 0 ∧ rel.tagName ≠ [] then
    ∀ updateByTag, rc.provider.updateReleaseBodyByTag = some updateByTag →
      (updateByTag rc.repo rel.tagName newBody host).1 ≠ none
  else (rp.updateReleaseBody rc.repo rel.id newBody host).1 ≠ none

/-- There are release notes, and they change the body of the release. -/
structure Changes (host : W) (rp : ReleasePublisher W) (rel : Release) : Prop where
  publisher : rc.provider.releasePublisher = some rp
  notes : firstContent .releaseNotes arts ≠ []
  release : rp.getReleaseByTag rc.repo rc.toRef host = .ok rel
  body : SpliceReleaseBody rel.body (firstContent .releaseNotes arts) ≠ rel.body

/-- No release can be changed. -/
def Idle (host : W) : Prop := ∀ rp rel, Changes rc arts host rp rel → Unreachable rc rel

/-- The release cannot be read, or its changed body is not taken. -/
def Fails (host : W) : Prop :=
  (∃ rp err, rc.provider.releasePublisher = some rp ∧ firstContent .releaseNotes arts ≠ [] ∧
    rp.getReleaseByTag rc.repo rc.toRef host = .error err) ∨
  ∃ rp rel, Changes rc arts host rp rel ∧
    Refused rc rp rel (SpliceReleaseBody rel.body (firstContent .releaseNotes arts)) host

variable {rc arts}

lemma Changes.unique {host : W} {rp rp' : ReleasePublisher W} {rel rel' : Release}
    (h : Changes rc arts host rp rel) (h' : Changes rc arts host rp' rel') : rp' = rp ∧ rel' = rel := by
  obtain rfl := Option.some.inj (h'.publisher.symm.trans h.publisher)
  exact ⟨rfl,Except.ok.inj (h'.release.symm.trans h.release)⟩

lemma update_adds (rp : ReleasePublisher W) (rel : Release) (newBody : Bytes) (w : World W) :
    Adds .releaseBody (Unreachable rc rel) w (update rc rp rel newBody w).2 := by
  rw [update]
  split
  · next h =>
    split
    · next hn => exact .nothing ⟨h.1,h.2,hn⟩ rfl
    · next u hu => exact .issued (fun hn => Option.some_ne_none u (hu.symm.trans hn.2.2)) rfl
  · next h => exact .issued (fun hn : Unreachable rc rel => h ⟨hn.1,hn.2.1⟩) rfl

lemma update_failed (rp : ReleasePublisher W) (rel : Release) (newBody : Bytes) (w : World W) :
    (update rc rp rel newBody w).1 ≠ none ↔ Refused rc rp rel newBody w.host := by
  rw [update,Refused]
  split
  · cases hu : rc.provider.updateReleaseBodyByTag with
    | none => simp
    | some u => simp [World.issue]
  · simp [World.issue]

theorem publish_adds (rc : ReleaseContext W) (arts : List Artifact) (w : World W) :
    Adds .releaseBody (Idle rc arts w.host) w (Publish rc arts w).2 := by
  rw [Publish]
  split
  · next hn =>
    refine .nothing (fun rp rel h => ?_) rfl
    cases hn.symm.trans h.publisher
  · next rp hrp =>
    dsimp only
    split
    · next hs => exact .nothing (fun rp rel h => absurd hs h.notes) rfl
    · next hs =>
      split
      · next err herr =>
        refine .nothing (fun rp' rel h => ?_) rfl
        obtain rfl := Option.some.inj (hrp.symm.trans h.publisher)
        cases herr.symm.trans h.release
      · next rel hrel =>
        split
        · next hb =>
          refine .nothing (fun rp' rel' h => ?_) rfl
          obtain rfl := Option.some.inj (hrp.symm.trans h.publisher)
          obtain rfl := Except.ok.inj (hrel.symm.trans h.release)
          exact absurd hb h.body
        · next hb =>
          have hc : Changes rc arts w.host rp rel := ⟨hrp,hs,hrel,hb⟩
          refine (update_adds rp rel _ w).congr ⟨fun h rp' rel' hc' => ?_,fun h => h rp rel hc⟩
          obtain ⟨rfl,rfl⟩ := hc.unique hc'
          exact h

/-- The publisher returns an error just when the release cannot be read or its body is not taken. -/
theorem publish_failed (rc : ReleaseContext W) (arts : List Artifact) (w : World W) :
    (Publish rc arts w).1 ≠ none ↔ Fails rc arts w.host := by
  constructor
  · intro h
    rw [Publish] at h
    split at h
    · exact absurd rfl h
    · next rp hrp =>
      dsimp only at h
      split at h
      · exact absurd rfl h
      · next hs =>
        split at h
        · next err herr => exact .inl ⟨rp,err,hrp,hs,herr⟩
        · next rel hrel =>
          split at h
          · exact absurd rfl h
          · next hb => exact .inr ⟨rp,rel,⟨hrp,hs,hrel,hb⟩,(update_failed rp rel _ w).mp h⟩
  · rintro (⟨rp,err,hrp,hs,herr⟩ | ⟨rp,rel,hc,hr⟩)
    · simp [Publish,hrp,hs,herr]
    · simp only [Publish,hc.publisher,if_neg hc.notes,hc.release,if_neg hc.body]
      exact (update_failed rp rel _ w).mpr hr

end ReleaseBody

namespace ChangelogPR

def changelogPath : Bytes := lit "CHANGELOG.md"
def commitMessage : Bytes := lit "chore: update CHANGELOG.md via Cadoo"
def prBase : Bytes := lit "main"

def prTitle (toRef : Bytes) : Bytes := lit "chore: update CHANGELOG.md for " ++ toRef

def prBody (toRef : Bytes) : Bytes :=
  ChangelogMarker toRef ++ lit "\n\nThis PR was automatically generated by Cadoo. " ++
    lit "It updates `CHANGELOG.md` for release " ++ toRef ++ lit "."

/-- The changelog as the release has it, empty when it cannot be read. -/
def existing (host : W) : Bytes :=
  match rc.provider.fetchFileFromRef with
  | none => []
  | some fetch =>
    match fetch rc.repo rc.toRef changelogPath host with
    | .error _ => []
    | .ok raw => raw

def Publish (w : World W) : Option PublishError × World W :=
  match rc.provider.branchCommitter with
  | none => (none,w)
  | some bc =>
    let newSection := firstContent .changelog arts
    if newSection = [] then (none,w)
    else
      let branch := ChangelogBranch rc.toRef
      let old := existing rc w.host
      let file : FileWrite :=
        ⟨changelogPath,if old ≠ [] then newSection ++ [newline] ++ old else newSection⟩
      match w.issue .changelogPR (.upsertFile rc.repo branch commitMessage file)
        (bc.upsertFile rc.repo branch commitMessage file) with
      | (some err,w) => (some (.vcs err),w)
      | (none,w) =>
        let title := prTitle rc.toRef
        let body := prBody rc.toRef
        match w.issue .changelogPR (.openOrUpdatePR rc.repo branch prBase title body)
          (bc.openOrUpdatePR rc.repo branch prBase title body) with
        | (.error err,w) => (some (.vcs err),w)
        | (.ok _,w) => (none,w)

/-- There is no changelog, or nobody to commit it. -/
def Idle : Prop := rc.provider.branchCommitter = none ∨ firstContent .changelog arts = []

variable {rc arts}

theorem publish_adds (rc : ReleaseContext W) (arts : List Artifact) (w : World W) :
    Adds .changelogPR (Idle rc arts) w (Publish rc arts w).2 := by
  rw [Publish]
  split
  · next hn => exact .nothing (.inl hn) rfl
  · next bc hbc =>
    dsimp only
    split
    · next hs => exact .nothing (.inr hs) rfl
    · next hs =>
      have hidle : ¬ Idle rc arts := fun h => h.elim (by simp [hbc]) hs
      split
      · next err w' heq => exact .issued hidle (World.writes_of_issue heq)
      · next w' heq =>
        refine .more hidle (.issued hidle (World.writes_of_issue heq)) (?_ : Adds _ False _ _)
        split
        · next err w'' heq => exact .issued id (World.writes_of_issue heq)
        · next n w'' heq => exact .issued id (World.writes_of_issue heq)

end ChangelogPR

namespace Pages

variable (bc : BranchCommitter W) (branch dir : Bytes)

/-- Where an artifact goes. -/
def pathOf (toRef : Bytes) (a : Artifact) : Bytes :=
  let filename := if a.filename = [] then a.kind.name ++ lit ".md" else a.filename
  GoPath.Join [dir,lit "releases",toRef,filename]

def commitMsg (toRef : Bytes) (a : Artifact) : Bytes :=
  lit "docs: release " ++ toRef ++ lit " " ++ a.kind.name

/-- Empty artifacts and paths outside the directory are passed over. -/
def publishEach : List Artifact → World W → Option PublishError × World W
  | [],w => (none,w)
  | a :: arts,w =>
    if a.content = [] then publishEach arts w
    else
      let p := pathOf dir rc.toRef a
      if hasPrefix p (dir ++ lit "/") = false then publishEach arts w
      else
        let msg := commitMsg rc.toRef a
        match w.issue .pages (.upsertFile rc.repo branch msg ⟨p,a.content⟩)
          (bc.upsertFile rc.repo branch msg ⟨p,a.content⟩) with
        | (some err,w) => (some (.upsertFile p err),w)
        | (none,w) => publishEach arts w

def Publish (w : World W) : Option PublishError × World W :=
  let cfg := rc.config.publish.pages
  if cfg.enabled = false then (none,w)
  else
    match rc.provider.branchCommitter with
    | none => (none,w)
    | some bc =>
      let branch := if cfg.branch = [] then lit "gh-pages" else cfg.branch
      let dir := if cfg.dir = [] then lit "docs" else cfg.dir
      publishEach rc bc branch dir arts w

variable {rc arts bc branch dir}

lemma publishEach_adds (w : World W) :
    ∃ idle, Adds .pages idle w (publishEach rc bc branch dir arts w).2 := by
  induction arts generalizing w with
  | nil => exact ⟨True,.nothing trivial rfl⟩
  | cons a arts ih =>
    rw [publishEach]
    split
    · exact ih w
    · dsimp only
      split
      · exact ih w
      · split
        · next err w' heq => exact ⟨False,.issued id (World.writes_of_issue heq)⟩
        · next w' heq =>
          obtain ⟨idle,hrest⟩ := ih w'
          exact ⟨False,.more id (.issued id (World.writes_of_issue heq)) hrest⟩

/-- Switched off, the publisher has nothing to do. -/
theorem publish_adds (rc : ReleaseContext W) (arts : List Artifact) (w : World W) :
    ∃ idle, Adds .pages idle w (Publish rc arts w).2 ∧
      (rc.config.publish.pages.enabled = false → idle) := by
  rw [Publish]
  dsimp only
  split
  · exact ⟨True,.nothing trivial rfl,fun _ => trivial⟩
  · next hon =>
    split
    · exact ⟨True,.nothing trivial rfl,fun _ => trivial⟩
    · exact (publishEach_adds w).imp fun idle h => ⟨h,fun hoff => absurd hoff hon⟩

end Pages

end ReleaseDocs
