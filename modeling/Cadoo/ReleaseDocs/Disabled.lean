import Cadoo.ReleaseDocs.Dispatcher

/-! Publishing to a target that is switched off. Only the pages publisher reads its switch; the other two
write whenever they have something to write. -/
namespace ReleaseDocs
open Bytes Vcs

variable {W : Type}

/-- Nothing to write for a target that is switched off. -/
def Quiet (rc : ReleaseContext W) (arts : List Artifact) (host : W) : PublishTarget → Prop
  | .releaseBody => ReleaseBody.Idle rc arts host
  | .changelogPR => ReleaseBody.Fails rc arts host ∨ ChangelogPR.Idle rc arts
  | .pages => True

variable {rc : ReleaseContext W} {arts : List Artifact} {w : World W} {t : PublishTarget}

lemma runPublishers_cons (pub : Publisher W) (pubs : List (Publisher W)) :
    (runPublishers rc arts (pub :: pubs) w).2 =
      if (pub.publish rc arts w).1 ≠ none then (pub.publish rc arts w).2
      else (runPublishers rc arts pubs (pub.publish rc arts w).2).2 := by
  rw [runPublishers]
  split
  · next err w' heq => simp [heq]
  · next w' heq => simp [heq]

/-- The later publishers get their turn unless the first fails. -/
lemma runPublishers_cases (rc : ReleaseContext W) (arts : List Artifact) (w : World W) :
    let w₁ := (ReleaseBody.Publish rc arts w).2
    let final := (runPublishers rc arts DefaultPublishers w).2
    (ReleaseBody.Fails rc arts w.host ∧ final = w₁) ∨
      ¬ ReleaseBody.Fails rc arts w.host ∧ ∃ idle,
        Adds .pages idle (ChangelogPR.Publish rc arts w₁).2 final ∧
          (rc.config.publish.pages.enabled = false → idle) := by
  simp only [DefaultPublishers,runPublishers_cons]
  by_cases hf : ReleaseBody.Fails rc arts w.host
  · rw [if_pos ((ReleaseBody.publish_failed rc arts w).mpr hf)]
    exact .inl ⟨hf,rfl⟩
  · rw [if_neg ((ReleaseBody.publish_failed rc arts w).not.mpr hf)]
    refine .inr ⟨hf,?_⟩
    split
    · exact ⟨True,.nothing trivial rfl,fun _ => trivial⟩
    · obtain ⟨idle,hp,hoff⟩ := Pages.publish_adds rc arts
        (ChangelogPR.Publish rc arts (ReleaseBody.Publish rc arts w).2).2
      refine ⟨idle,?_,hoff⟩
      split <;> exact hp

lemma runPublishers_unwritten (hw : Unwritten t w) (hoff : rc.config.publish.enabled t = false) :
    Unwritten t (runPublishers rc arts DefaultPublishers w).2 ↔ Quiet rc arts w.host t := by
  have h₁ := ReleaseBody.publish_adds rc arts w
  have h₂ := ChangelogPR.publish_adds rc arts (ReleaseBody.Publish rc arts w).2
  rcases runPublishers_cases rc arts w with ⟨hf,hfinal⟩ | ⟨hf,idle,h₃,hpages⟩
  · rw [hfinal]
    cases t with
    | releaseBody => rw [h₁.unwritten,and_iff_right hw,Quiet]
    | changelogPR =>
      rw [h₁.unwritten_ne (by decide)]
      exact iff_of_true hw (.inl hf)
    | pages =>
      rw [h₁.unwritten_ne (by decide)]
      exact iff_of_true hw trivial
  · cases t with
    | releaseBody =>
      rw [h₃.unwritten_ne (by decide),h₂.unwritten_ne (by decide),h₁.unwritten,and_iff_right hw,Quiet]
    | changelogPR =>
      rw [h₃.unwritten_ne (by decide),h₂.unwritten,h₁.unwritten_ne (by decide),and_iff_right hw,Quiet,
        or_iff_right hf]
    | pages =>
      rw [h₃.unwritten,h₂.unwritten_ne (by decide),h₁.unwritten_ne (by decide)]
      exact iff_of_true ⟨hw,hpages hoff⟩ trivial

/-- A run writes nothing for a target that is switched off just when it never gets to its publishers, or
the publisher of the target has nothing to write. -/
theorem disabled_unwritten_iff (d : Dispatcher W) (hpub : d.publishers = DefaultPublishers)
    (job : ReleaseJob) (t : PublishTarget) (host : W) (posted : Option (List Publication))
    (hoff : ∀ p, d.vcsPool job.withDefaults.provider = some p →
      (d.loadCfg p job.withDefaults host).publish.enabled t = false) :
    Unwritten t (d.Run job { host := host, posted := posted }).2 ↔
      ∀ rc arts, d.prepare job.withDefaults host = .ok (rc,arts) → Quiet rc arts host t := by
  have hfresh : Unwritten t { host := host, posted := posted } := fun c hc => nomatch hc
  rw [Dispatcher.Run]
  dsimp only
  split
  · next err herr =>
    refine iff_of_true hfresh fun rc arts h => ?_
    cases herr.symm.trans h
  · next rc arts hok =>
    obtain ⟨p,hp,hcfg⟩ := Dispatcher.prepare_ok hok
    have hquiet : Unwritten t (runPublishers rc arts DefaultPublishers
        { host := host, posted := posted }).2 ↔ Quiet rc arts host t :=
      runPublishers_unwritten hfresh (by rw [hcfg]; exact hoff p hp)
    have hall : (∀ rc arts, d.prepare job.withDefaults host = .ok (rc,arts) → Quiet rc arts host t) ↔
        Quiet rc arts host t := by
      refine ⟨fun h => h rc arts hok,fun h rc' arts' hok' => ?_⟩
      obtain ⟨rfl,rfl⟩ := Prod.mk.inj (Except.ok.inj (hok.symm.trans hok'))
      exact h
    rw [hall,← hquiet,hpub]
    split
    · next err w' heq => rw [heq]
    · next w' heq =>
      rw [heq]
      rfl

section Example

def exampleProvider : ReleaseProvider Unit where
  kind := KindGitHub
  rangeReader := some ⟨fun _ _ _ _ => .ok [],fun _ _ _ _ => .ok [],fun _ _ _ _ => .ok []⟩
  releasePublisher := some
    ⟨fun _ tag _ => .ok ⟨7,tag,lit "Thanks to everyone."⟩,fun _ _ _ _ => (none,())⟩
  branchCommitter := some ⟨fun _ _ _ _ _ => (none,()),fun _ _ _ _ _ _ => (.ok 12,())⟩

/-- Makes one artifact of its kind at every release. -/
def exampleGenerator (kind : ArtifactKind) : Generator Unit :=
  ⟨kind,fun _ _ => true,fun rc _ => .ok [{ kind := kind, content := lit "Release " ++ rc.toRef }]⟩

/-- Release documents are on, and no target is. -/
def exampleDispatcher (kinds : List ArtifactKind) : Dispatcher Unit where
  vcsPool k := if k = KindGitHub then some exampleProvider else none
  parse _ := .ok {}
  semver := ⟨fun _ => true,id,id,id⟩
  baseCfg := { enabled := true }
  generators := kinds.map exampleGenerator
  publishers := DefaultPublishers

def exampleRelease : ReleaseJob := { repo := lit "acme/shop", toRef := lit "v1.0.0" }

theorem switched_off_targets_written :
    let d := exampleDispatcher [.changelog,.releaseNotes]
    let cfg := d.loadCfg exampleProvider exampleRelease ()
    let run := d.Run exampleRelease { host := () }
    cfg.enabled = true ∧ cfg.publish.enabled .releaseBody = false ∧
      cfg.publish.enabled .changelogPR = false ∧ run.1 = none ∧
      ¬ Unwritten .releaseBody run.2 ∧ ¬ Unwritten .changelogPR run.2 := by
  decide +kernel

theorem switched_off_body_unwritten :
    Unwritten .releaseBody
      ((exampleDispatcher [.changelog]).Run exampleRelease { host := (), posted := none }).2 := by
  refine (disabled_unwritten_iff (exampleDispatcher [.changelog]) rfl exampleRelease .releaseBody ()
    none fun p hp => ?_).mpr fun rc arts h => ?_
  · obtain rfl := Option.some.inj hp
    rfl
  · obtain ⟨rfl,rfl⟩ := Prod.mk.inj (Except.ok.inj h)
    exact fun rp rel hc => absurd rfl hc.notes

end Example

end ReleaseDocs
