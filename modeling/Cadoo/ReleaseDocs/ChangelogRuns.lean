import Cadoo.Lib.Steps
import Cadoo.ReleaseDocs.Publishers
import Cadoo.Vcs.BranchCommit

/-! The changelog's pull requests on GitHub over whole runs: releases are published one after the other, calls fail
or lose their answers, and people push, merge and open pull requests in between. A release whose own changelog cannot
be read is published all the same, with its new section alone. -/
namespace ReleaseDocs
open Bytes Vcs Vcs.Repository Steps

/-- The GitHub adapter as the changelog's publisher sees it. -/
def gitHubProvider : ReleaseProvider Host where
  kind := KindGitHub
  fetchFileFromRef := some GitHub.FetchFileFromRef
  branchCommitter := some GitHub.branchCommitter

/-- Publishing the changelog of a release. -/
def publishChangelog (rc : ReleaseContext Host) (arts : List Artifact) (h : Host) : Option PublishError × Host :=
  let published := ChangelogPR.Publish { rc with provider := gitHubProvider } arts { host := h }
  (published.1,published.2.host)

inductive HostEvent where
  | publish (rc : ReleaseContext Host) (arts : List Artifact) (faults : List (Option Fault)) (readFault : Option Err)
  | setRef (ref : Bytes) (tree : Tree)
  | deleteRef (ref : Bytes)
  | openPull (owner title head base body : Bytes)
  | editPull (number : ℤ) (title body : Bytes)
  | closePull (number : ℤ)

/-- Others open a pull request only where there is none from the branch yet. -/
def hostStep (h : Host) : HostEvent → Option Host
  | .publish rc arts faults readFault =>
    some (publishChangelog rc arts (h.facing faults readFault)).2
  | .setRef ref tree => some (h.clear { h.repository with refs := h.repository.refs.insert ref tree })
  | .deleteRef ref => some (h.clear { h.repository with refs := h.repository.refs.erase ref })
  | .openPull owner title head base body =>
    if h.repository.openPulls owner head base = [] then some (h.clear (h.repository.create owner title head base body).2)
    else none
  | .editPull number title body => some (h.clear (h.repository.edit number title body).2)
  | .closePull number => some (h.clear { h.repository with
      pulls := h.repository.pulls.map fun p => if p.number = number then { p with isOpen := false } else p })

/-- The changelog that a release is published with: its section, and what the release's own file has. -/
def changelogContent {W : Type} (rc : ReleaseContext W) (arts : List Artifact) (host : W) : Bytes :=
  let newSection := firstContent .changelog arts
  let old := ChangelogPR.existing rc host
  if old ≠ [] then newSection ++ [newline] ++ old else newSection

/-- The two calls of the publisher, the second one only after the first has gone well. -/
lemma publish_calls {W : Type} (rc : ReleaseContext W) {arts : List Artifact} {bc : BranchCommitter W} (w : World W)
    (hbc : rc.provider.branchCommitter = some bc) (harts : firstContent .changelog arts ≠ []) :
    ∃ err res h₁ h₂,
      bc.upsertFile rc.repo (ChangelogBranch rc.toRef) ChangelogPR.commitMessage
        ⟨ChangelogPR.changelogPath,changelogContent rc arts w.host⟩ w.host = (err,h₁) ∧
      bc.openOrUpdatePR rc.repo (ChangelogBranch rc.toRef) ChangelogPR.prBase (ChangelogPR.prTitle rc.toRef)
        (ChangelogPR.prBody rc.toRef) h₁ = (res,h₂) ∧
      ((∃ e, err = some e) ∧ (ChangelogPR.Publish rc arts w).1 ≠ none ∧ (ChangelogPR.Publish rc arts w).2.host = h₁ ∨
        err = none ∧ (ChangelogPR.Publish rc arts w).2.host = h₂ ∧
          ((ChangelogPR.Publish rc arts w).1 = none ↔ ∃ n, res = .ok n)) := by
  obtain ⟨err,h₁,hput⟩ : ∃ err h₁, bc.upsertFile rc.repo (ChangelogBranch rc.toRef) ChangelogPR.commitMessage
      ⟨ChangelogPR.changelogPath,changelogContent rc arts w.host⟩ w.host = (err,h₁) := ⟨_,_,rfl⟩
  obtain ⟨res,h₂,hopened⟩ : ∃ res h₂, bc.openOrUpdatePR rc.repo (ChangelogBranch rc.toRef) ChangelogPR.prBase
      (ChangelogPR.prTitle rc.toRef) (ChangelogPR.prBody rc.toRef) h₁ = (res,h₂) := ⟨_,_,rfl⟩
  refine ⟨err,res,h₁,h₂,hput,hopened,?_⟩
  rw [changelogContent] at hput
  simp only [ChangelogPR.Publish,hbc,if_neg harts,World.issue,World.log]
  rw [hput]
  cases err with
  | some err => exact .inl ⟨⟨err,rfl⟩,by simp,rfl⟩
  | none =>
    simp only [hopened]
    cases res with
    | error err => exact .inr ⟨trivial,rfl,by simp⟩
    | ok n => exact .inr ⟨trivial,rfl,by simp⟩

variable {rc : ReleaseContext Host} {arts : List Artifact} {h h₁ : Host}

/-- The content that the publisher puts on the branch. -/
def released (rc : ReleaseContext Host) (arts : List Artifact) (h : Host) : Bytes :=
  changelogContent { rc with provider := gitHubProvider } arts h

lemma publishChangelog_calls (rc : ReleaseContext Host) (h : Host) (harts : firstContent .changelog arts ≠ []) :
    ∃ err res h₁ h₂,
      GitHub.UpsertFile rc.repo (ChangelogBranch rc.toRef) ChangelogPR.commitMessage
        ⟨ChangelogPR.changelogPath,released rc arts h⟩ h = (err,h₁) ∧
      GitHub.OpenOrUpdatePR rc.repo (ChangelogBranch rc.toRef) ChangelogPR.prBase (ChangelogPR.prTitle rc.toRef)
        (ChangelogPR.prBody rc.toRef) h₁ = (res,h₂) ∧
      ((∃ e, err = some e) ∧ (publishChangelog rc arts h).1 ≠ none ∧ (publishChangelog rc arts h).2 = h₁ ∨
        err = none ∧ (publishChangelog rc arts h).2 = h₂ ∧
          ((publishChangelog rc arts h).1 = none ↔ ∃ n, res = .ok n)) :=
  publish_calls { rc with provider := gitHubProvider } ⟨h,[],none⟩ rfl harts

lemma publishChangelog_idle (harts : firstContent .changelog arts = []) :
    publishChangelog rc arts h = (none,h) := by
  rw [publishChangelog,ChangelogPR.Publish]
  simp only [gitHubProvider,harts,if_true]

/-- Everything but the branch of a release and its pull requests is left alone. -/
structure OnRelease (toRef : Bytes) (h h' : Host) : Prop where
  owner : h'.owner = h.owner
  name : h'.name = h.name
  defaultBranch : h'.repository.defaultBranch = h.repository.defaultBranch
  refs : ∀ ref, ref ≠ heads (ChangelogBranch toRef) → h'.repository.refs.lookup ref = h.repository.refs.lookup ref
  pulls : ∀ owner head base, (owner,head,base) ≠ (h.owner,ChangelogBranch toRef,ChangelogPR.prBase) →
    h'.repository.openPulls owner head base = h.repository.openPulls owner head base

/-- What a release has at the host after it has been published with a changelog. -/
structure Published (toRef content : Bytes) (h h' : Host) : Prop where
  file : ∃ tree, h.repository.Base (ChangelogBranch toRef) tree ∧ isDir tree ChangelogPR.changelogPath = false ∧
    h'.repository.refs.lookup (heads (ChangelogBranch toRef)) = some (tree.insert ChangelogPR.changelogPath content)
  pull : ∃ p, h'.repository.openPulls h.owner (ChangelogBranch toRef) ChangelogPR.prBase = [p] ∧
    p.title = ChangelogPR.prTitle toRef ∧ p.body = ChangelogPR.prBody toRef ∧
    ∀ q ∈ h.repository.openPulls h.owner (ChangelogBranch toRef) ChangelogPR.prBase, q.number = p.number

lemma publishChangelog_spec (hr : h.repository.Sound) (rc : ReleaseContext Host) (arts : List Artifact) :
    (publishChangelog rc arts h).2.repository.Sound ∧ OnRelease rc.toRef h (publishChangelog rc arts h).2 ∧
      (firstContent .changelog arts ≠ [] → (publishChangelog rc arts h).1 = none →
        GitHub.splitRepo rc.repo = some (h.owner,h.name) ∧
        Published rc.toRef (released rc arts h) h (publishChangelog rc arts h).2) := by
  by_cases harts : firstContent .changelog arts = []
  · rw [publishChangelog_idle harts]
    exact ⟨hr,⟨rfl,rfl,rfl,fun _ _ => rfl,fun _ _ _ _ => rfl⟩,fun hne => absurd harts hne⟩
  · obtain ⟨err,res,h₁,h₂,hput,hopened,hcalls⟩ := publishChangelog_calls rc h harts
    obtain ⟨howner,hname,hon,hfile⟩ := GitHub.UpsertFile_spec hput
    have hr₁ := hr.congr hon.pulls hon.nextNumber
    have hpulls₁ := openPulls_congr hon.pulls
    obtain ⟨-,hfail,hhost⟩ | ⟨rfl,hhost,hdone⟩ := hcalls
    · rw [hhost]
      exact ⟨hr₁,⟨howner,hname,hon.defaultBranch,hon.refs,fun _ _ _ _ => hpulls₁ _ _ _⟩,
        fun _ hnone => absurd hnone hfail⟩
    · obtain ⟨hsplit,tree,hbase,hdir,htree⟩ := hfile rfl
      obtain ⟨hr₂,hrefs,hdefault,hothers,hok⟩ := GitHub.OpenOrUpdatePR_sound hr₁ hopened
      obtain ⟨howner₂,hname₂,-⟩ := GitHub.OpenOrUpdatePR_spec hopened
      rw [hhost]
      refine ⟨hr₂,⟨howner₂.trans howner,hname₂.trans hname,hdefault.trans hon.defaultBranch,?_,?_⟩,fun _ hnone => ?_⟩
      · intro ref hne
        rw [hrefs]
        exact hon.refs ref hne
      · intro owner head base hne
        rw [hothers owner head base (howner ▸ hne)]
        exact hpulls₁ owner head base
      · obtain ⟨n,rfl⟩ := hdone.mp hnone
        obtain ⟨-,p,htitle,hbody,rfl,hopen,hold⟩ := hok n rfl
        rw [howner] at hopen hold
        refine ⟨hsplit,⟨tree,hbase,hdir,by rw [hrefs]; exact htree⟩,p,hopen,htitle,hbody,fun q hq => hold q ?_⟩
        rwa [hpulls₁]

section Reading

/-- The changelog of the release itself, as the host answers when it is asked for it. -/
def ownChangelog (rc : ReleaseContext Host) (h : Host) : Except Err Bytes :=
  GitHub.FetchFileFromRef rc.repo rc.toRef ChangelogPR.changelogPath h

lemma released_eq (rc : ReleaseContext Host) (arts : List Artifact) (h : Host) : released rc arts h =
    match ownChangelog rc h with
    | .error _ => firstContent .changelog arts
    | .ok old => if old ≠ [] then firstContent .changelog arts ++ [newline] ++ old else firstContent .changelog arts := by
  rw [released,changelogContent,ChangelogPR.existing]
  change (if (match ownChangelog rc h with | .error _ => [] | .ok raw => raw) ≠ [] then
    firstContent .changelog arts ++ [newline] ++ (match ownChangelog rc h with | .error _ => [] | .ok raw => raw)
      else firstContent .changelog arts) = _
  cases ownChangelog rc h with
  | error err => rfl
  | ok old => rfl

lemma released_merged {old : Bytes} (h' : ownChangelog rc h = .ok old) (hne : old ≠ []) :
    released rc arts h = firstContent .changelog arts ++ [newline] ++ old := by
  rw [released_eq,h']
  exact if_pos hne

lemma released_alone (h' : ∀ old, ownChangelog rc h = .ok old → old = []) :
    released rc arts h = firstContent .changelog arts := by
  rw [released_eq]
  cases hown : ownChangelog rc h with
  | error err => rfl
  | ok old => exact if_neg (not_not.mpr (h' old hown))

/-- What a refused read comes to. -/
lemma ownChangelog_refused {h : Host} (hread : h.readFault ≠ none) (old : Bytes) : ownChangelog rc h ≠ .ok old := by
  obtain ⟨err,herr⟩ := Option.ne_none_iff_exists'.mp hread
  rw [ownChangelog,GitHub.FetchFileFromRef]
  cases GitHub.splitRepo rc.repo with
  | none => simp
  | some on =>
    simp only [HostOf.read,herr]
    by_cases hown : on.1 = h.owner ∧ on.2 = h.name <;> simp [hown]

/-- The release itself does not stand on its changelog's branch. -/
lemma ownChangelog_again (hsplit : GitHub.splitRepo rc.repo = some (h.owner,h.name))
    (h' : OnRelease rc.toRef h h₁) (readFault : Option Err) :
    ownChangelog rc (h₁.facing [] readFault) = ownChangelog rc (h.facing [] readFault) := by
  have hbranch : heads rc.toRef ≠ heads (ChangelogBranch rc.toRef) := by
    intro heq
    have hlen := congrArg List.length (List.append_cancel_left heq)
    rw [ChangelogBranch,List.length_append] at hlen
    have hpre : (lit "cadoo/changelog/").length = 16 := rfl
    omega
  have htag : tags rc.toRef ≠ heads (ChangelogBranch rc.toRef) := by
    intro heq
    have hbyte : some (116 : UInt8) = some 104 := congrArg (fun s : Bytes => s[5]?) heq
    exact absurd hbyte (by decide)
  have hresolve : h₁.repository.resolve rc.toRef = h.repository.resolve rc.toRef := by
    rw [resolve,resolve,h'.refs _ hbranch,h'.refs _ htag]
  rw [ownChangelog,ownChangelog,GitHub.FetchFileFromRef,GitHub.FetchFileFromRef,hsplit]
  simp only [HostOf.read,HostOf.facing,h'.owner,h'.name,and_self,if_true,getContents,hresolve]

/-- Two readings of one release make the same changelog just when both go through, or neither, or when there is
nothing to be read. -/
lemma released_eq_iff (hsplit : GitHub.splitRepo rc.repo = some (h.owner,h.name)) (h' : OnRelease rc.toRef h h₁)
    (readFault : Option Err) : released rc arts (h₁.facing [] readFault) = released rc arts h ↔
      ((readFault = none ↔ h.readFault = none) ∨ ∀ old, ownChangelog rc (h.facing [] none) = .ok old → old = []) := by
  have hagain := ownChangelog_again hsplit h'
  have hself : ownChangelog rc h = ownChangelog rc (h.facing [] h.readFault) := rfl
  by_cases hold : ∀ old, ownChangelog rc (h.facing [] none) = .ok old → old = []
  · have hempty : ∀ readFault old, ownChangelog rc (h.facing [] readFault) = .ok old → old = [] := by
      intro readFault old hown
      cases readFault with
      | none => exact hold old hown
      | some err => exact absurd hown (ownChangelog_refused (Option.some_ne_none err) old)
    rw [released_alone (fun old => by rw [hagain]; exact hempty readFault old),
      released_alone (fun old => by rw [hself]; exact hempty h.readFault old)]
    exact iff_of_true rfl (.inr hold)
  · push Not at hold
    obtain ⟨old,hown,hne⟩ := hold
    have hmerged : ∀ {k : Host}, ownChangelog rc k = ownChangelog rc (h.facing [] none) →
        released rc arts k = firstContent .changelog arts ++ [newline] ++ old :=
      fun hk => released_merged (hk.trans hown) hne
    have halone : ∀ {k : Host}, k.readFault ≠ none → released rc arts k = firstContent .changelog arts :=
      fun hk => released_alone fun old' hown' => absurd hown' (ownChangelog_refused hk old')
    have hdiffer : firstContent .changelog arts ++ [newline] ++ old ≠ firstContent .changelog arts := by
      intro heq
      have hlen := congrArg List.length heq
      simp at hlen
    have hnot : ¬ ∀ old, ownChangelog rc (h.facing [] none) = .ok old → old = [] := fun hall => hne (hall old hown)
    rw [or_iff_left hnot]
    by_cases hread : readFault = none <;> by_cases hread₀ : h.readFault = none
    · rw [hmerged (hread ▸ hagain none),hmerged (hself.trans (by rw [hread₀]))]
      exact iff_of_true rfl (iff_of_true hread hread₀)
    · rw [hmerged (hread ▸ hagain none),halone hread₀]
      exact iff_of_false hdiffer fun hiff => hread₀ (hiff.mp hread)
    · rw [halone (k := h₁.facing [] readFault) hread,hmerged (hself.trans (by rw [hread₀]))]
      exact iff_of_false hdiffer.symm fun hiff => hread (hiff.mpr hread₀)
    · rw [halone (k := h₁.facing [] readFault) hread,halone hread₀]
      exact iff_of_true rfl (iff_of_false hread hread₀)

end Reading

/-- The same repository, but for the order in which the refs are kept. -/
structure SameRepository (r r' : Repository) : Prop where
  defaultBranch : r'.defaultBranch = r.defaultBranch
  refs : ∀ ref, r'.refs.lookup ref = r.refs.lookup ref
  pulls : r'.pulls = r.pulls
  nextNumber : r'.nextNumber = r.nextNumber

lemma isDir_insert {tree : Tree} {path : Bytes} (h : isDir tree path = false) (content : Bytes) :
    isDir (tree.insert path content) path = false := by
  rw [isDir,List.any_eq_false] at h ⊢
  intro k hk
  obtain rfl | hk := (AList.mem_insert tree).mp hk
  · intro hpre
    have hlen := (List.isPrefixOf_iff_prefix.mp hpre).length_le
    rw [List.length_append] at hlen
    have hone : (lit "/").length = 1 := rfl
    omega
  · exact h k hk

/-- Publishing a release again, when no write goes wrong, replaces its changelog by what it reads this time. -/
lemma publishChangelog_again (harts : firstContent .changelog arts ≠ [])
    (hsplit : GitHub.splitRepo rc.repo = some (h.owner,h.name)) (hon : OnRelease rc.toRef h h₁)
    (hpub : Published rc.toRef (released rc arts h) h h₁) (readFault : Option Err) :
    (publishChangelog rc arts (h₁.facing [] readFault)).1 = none ∧
      (SameRepository h₁.repository (publishChangelog rc arts (h₁.facing [] readFault)).2.repository ↔
        released rc arts (h₁.facing [] readFault) = released rc arts h) := by
  obtain ⟨⟨tree,-,hdir,htree⟩,p,hopen,htitle,hbody,-⟩ := hpub
  have hsplit₁ : GitHub.splitRepo rc.repo = some (h₁.owner,h₁.name) := by rw [hsplit,hon.owner,hon.name]
  obtain ⟨err,res,k₁,k₂,hput,hopened,hcalls⟩ := publishChangelog_calls rc (h₁.facing [] readFault) harts
  generalize released rc arts (h₁.facing [] readFault) = content at hput ⊢
  have hover := GitHub.UpsertFile_over ChangelogPR.commitMessage (f := ⟨ChangelogPR.changelogPath,content⟩)
    readFault hsplit₁ htree (AList.lookup_insert tree) (isDir_insert hdir _)
  obtain ⟨rfl,rfl⟩ := Prod.mk.inj (hput.symm.trans hover)
  rw [GitHub.OpenOrUpdatePR_again readFault hsplit₁ (hon.owner ▸ hopen) htitle hbody] at hopened
  obtain ⟨rfl,rfl⟩ := Prod.mk.inj hopened
  obtain ⟨⟨e,he⟩,-⟩ | ⟨-,hhost,hdone⟩ := hcalls
  · exact absurd he (by simp)
  · rw [hhost]
    refine ⟨hdone.mpr ⟨_,rfl⟩,fun hsame => ?_,?_⟩
    · have hlookup := hsame.refs (heads (ChangelogBranch rc.toRef))
      change (h₁.repository.refs.insert _ _).lookup _ = _ at hlookup
      rw [AList.lookup_insert,htree,AList.insert_insert] at hlookup
      have hfile := congrArg (AList.lookup ChangelogPR.changelogPath) (Option.some.inj hlookup)
      rw [AList.lookup_insert,AList.lookup_insert] at hfile
      exact Option.some.inj hfile
    · rintro rfl
      refine ⟨rfl,fun ref => ?_,rfl,rfl⟩
      change (h₁.repository.refs.insert _ _).lookup ref = _
      by_cases href : ref = heads (ChangelogBranch rc.toRef)
      · rw [href,AList.lookup_insert,htree,AList.insert_insert]
      · exact AList.lookup_insert_ne href

lemma hostStep_sound {ev : HostEvent} (hr : h.repository.Sound) (hstep : hostStep h ev = some h₁) :
    h₁.repository.Sound := by
  cases ev with
  | publish rc arts faults readFault =>
    obtain rfl := Option.some.inj hstep
    exact (publishChangelog_spec (h := h.facing faults readFault) hr rc arts).1
  | setRef ref tree =>
    obtain rfl := Option.some.inj hstep
    exact hr.congr rfl rfl
  | deleteRef ref =>
    obtain rfl := Option.some.inj hstep
    exact hr.congr rfl rfl
  | openPull owner title head base body =>
    rw [hostStep] at hstep
    split at hstep
    · next hopen =>
      obtain rfl := Option.some.inj hstep
      exact hr.create hopen
    · exact absurd hstep (by simp)
  | editPull number title body =>
    obtain rfl := Option.some.inj hstep
    exact hr.edit number title body
  | closePull number =>
    obtain rfl := Option.some.inj hstep
    refine hr.map (fun p => ?_) (fun p => ?_) fun p hp => ?_
    · split <;> rfl
    · split <;> exact ⟨rfl,rfl,rfl⟩
    · split at hp
      · exact absurd hp (by simp)
      · exact hp

/-- What holds of publishing a release: no branch has two open pull requests to the same other branch; nothing but
the release's branch and pull request changes; when it succeeds, there is exactly one open pull request for the branch,
with the release's title and marker, and still of the number it had, and the branch has its other files as they were
and the new section in its changelog. The old changelog stands behind that if it could be read; if it could not, it is
left out, and success is reported all the same. Publishing again changes nothing just when the second read goes like the
first, or when there is no old changelog. -/
structure PublishesSafely (rc : ReleaseContext Host) (arts : List Artifact) (h : Host) : Prop where
  alone : ∀ owner head base, (h.repository.openPulls owner head base).length ≤ 1
  onRelease : OnRelease rc.toRef h (publishChangelog rc arts h).2
  merged : (publishChangelog rc arts h).1 = none → ∀ old, ownChangelog rc h = .ok old → old ≠ [] →
    Published rc.toRef (firstContent .changelog arts ++ [newline] ++ old) h (publishChangelog rc arts h).2
  unread : (publishChangelog rc arts h).1 = none → (∀ old, ownChangelog rc h = .ok old → old = []) →
    Published rc.toRef (firstContent .changelog arts) h (publishChangelog rc arts h).2
  again : (publishChangelog rc arts h).1 = none → ∀ readFault h₁, h₁ = (publishChangelog rc arts h).2 →
    (publishChangelog rc arts (h₁.facing [] readFault)).1 = none ∧
      (SameRepository h₁.repository (publishChangelog rc arts (h₁.facing [] readFault)).2.repository ↔
        ((readFault = none ↔ h.readFault = none) ∨ ∀ old, ownChangelog rc (h.facing [] none) = .ok old → old = []))

/-- In every state a run can reach, and whatever befalls the calls. -/
theorem run_publishesSafely {h₀ : Host} (hr : h₀.repository.Sound) {es : List HostEvent}
    (hrun : run hostStep h₀ es = some h) (rc : ReleaseContext Host) (harts : firstContent .changelog arts ≠ [])
    (faults : List (Option Fault)) (readFault : Option Err) :
    PublishesSafely rc arts (h.facing faults readFault) := by
  have hsound : (h.facing faults readFault).repository.Sound :=
    run_invariant (I := fun h => h.repository.Sound) hrun hr fun _ _ _ hs hi => hostStep_sound hi hs
  obtain ⟨-,hon,hok⟩ := publishChangelog_spec hsound rc arts
  refine ⟨hsound.alone,hon,fun hnone old hown hne => ?_,fun hnone hown => ?_,fun hnone readFault' h₁ hh₁ => ?_⟩
  · rw [← released_merged hown hne]
    exact (hok harts hnone).2
  · rw [← released_alone hown]
    exact (hok harts hnone).2
  · subst hh₁
    obtain ⟨hsplit,hpub⟩ := hok harts hnone
    obtain ⟨hdone,hsame⟩ := publishChangelog_again harts hsplit hon hpub readFault'
    exact ⟨hdone,hsame.trans (released_eq_iff hsplit hon readFault')⟩

section Example

def exampleHost : Host where
  owner := lit "acme"
  name := lit "shop"
  repository := {
    defaultBranch := lit "trunk"
    refs := .ofEntries [(heads (lit "trunk"),.ofEntries [(lit "README.md",lit "# Shop")]),
      (tags (lit "v1.0.0"),.ofEntries [(lit "CHANGELOG.md",lit "## v0.9.0\n")])]
    pulls := []
    nextNumber := 1 }

def exampleContext : ReleaseContext Host where
  repo := lit "acme/shop"
  org := []
  fromRef := []
  toRef := lit "v1.0.0"
  bump := .none
  commits := []
  mergedPRs := []
  config := {}
  provider := gitHubProvider
  groupedModel := []

def exampleArtifacts : List Artifact := [⟨.changelog,lit "## v1.0.0\n",[]⟩]

/-- The answer to the opening of the pull request is lost; then someone changes its title. -/
def exampleHostEvents : List HostEvent :=
  [.publish exampleContext exampleArtifacts
    [none,none,none,none,none,none,none,some (.lost (lit "timeout"))] none,.editPull 1 (lit "wip") []]

lemma exampleHost_sound : exampleHost.repository.Sound where
  numbers := .nil
  fresh := by simp [exampleHost]
  alone := by simp [exampleHost,openPulls]

theorem example_publishesSafely : ∃ h, run hostStep exampleHost exampleHostEvents = some h ∧
    (h.repository.openPulls (lit "acme") (lit "cadoo/changelog/v1.0.0") (lit "main")).map Pull.title = [lit "wip"] ∧
    (publishChangelog exampleContext exampleArtifacts (h.facing [] none)).1 = none ∧
    PublishesSafely exampleContext exampleArtifacts (h.facing [] none) :=
  have hrun : ∃ h, run hostStep exampleHost exampleHostEvents = some h ∧
      (h.repository.openPulls (lit "acme") (lit "cadoo/changelog/v1.0.0") (lit "main")).map Pull.title = [lit "wip"] ∧
      (publishChangelog exampleContext exampleArtifacts (h.facing [] none)).1 = none := ⟨_,rfl,by decide,by decide⟩
  let ⟨h,hh,htitle,hnone⟩ := hrun
  ⟨h,hh,htitle,hnone,run_publishesSafely exampleHost_sound hh exampleContext (by decide) [] none⟩

end Example

end ReleaseDocs
