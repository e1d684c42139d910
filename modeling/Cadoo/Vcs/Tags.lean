import Mathlib.Data.List.Find
import Cadoo.Lib.Glob
import Cadoo.Lib.Paging
import Cadoo.Vcs.GitHub

/-! The tag that comes before a release, looked for in the pages of tags that a host lists, newest first. -/
namespace Vcs
open Bytes Glob Paging

/-- What goes wrong: a repository without an owner, a host that does not answer, a malformed pattern. -/
inductive TagErr where
  | repo (repo : Bytes)
  | list (repo : Bytes) (err : Err)
  | pattern (tagPattern : Bytes)

section Loop
variable (toRef tagPattern : Bytes)

/-- One tag looked at: that of the release itself is passed over, and one that matches stops the loop. -/
def scanTag (_ : Unit) (tag : Bytes) : Except (Except TagErr Bytes) Unit :=
  if tag = toRef then .ok ()
  else match Match tagPattern tag with
    | none => .error (.error (.pattern tagPattern))
    | some true => .error (.ok tag)
    | some false => .ok ()

/-- The loop over the pages of tags, with the empty string when no tag matches. -/
def latestTag (listTags : ℕ → Except TagErr (NumberedPage Bytes)) (fuel page : ℕ) : Option (Except TagErr Bytes) :=
  loop listTags (scanTag toRef tagPattern) .error (fun _ => .ok []) fuel page ()

end Loop

end Vcs

namespace GitHub
open Bytes Paging Vcs

/-- How a page of tags is asked for; page 0 is left out of the query. -/
structure ListOptions where
  page : ℕ := 0
  perPage : ℕ

def LatestTagBefore (listTags : Bytes → Bytes → ListOptions → Except Err (NumberedPage Bytes)) (fuel : ℕ)
    (repo toRef tagPattern : Bytes) : Option (Except TagErr Bytes) :=
  match splitRepo repo with
  | none => some (.error (.repo repo))
  | some (owner,name) =>
    latestTag toRef tagPattern (fun page => (listTags owner name ⟨page,100⟩).mapError (.list repo)) fuel 0

end GitHub

namespace GitLab
open Bytes Paging Vcs

structure ListTagsOptions where
  orderBy : Bytes
  sort : Bytes
  page : ℕ
  perPage : ℕ

/-- Null tags are passed over. -/
def LatestTagBefore (listTags : Bytes → ListTagsOptions → Except Err (NumberedPage (Option Bytes))) (fuel : ℕ)
    (repo toRef tagPattern : Bytes) : Option (Except TagErr Bytes) :=
  latestTag toRef tagPattern (fun page =>
    ((listTags repo ⟨lit "version",lit "desc",page,100⟩).mapError (.list repo)).map fun p =>
      ⟨p.items.filterMap id,p.nextPage⟩) fuel 1

end GitLab

namespace Vcs
open Bytes Glob Paging

/-- The loop looks for the first tag that matches, other than that of the release. -/
lemma outcome_scanTag {tagPattern : Bytes} (hvalid : Valid tagPattern) (toRef : Bytes) (tags : List Bytes) :
    outcome (scanTag toRef tagPattern) (fun _ => .ok []) tags () =
      .ok ((tags.find? fun t => t ≠ toRef ∧ Match tagPattern t = some true).getD []) := by
  induction tags with
  | nil => rfl
  | cons t ts ih =>
    rw [outcome,List.foldlM_cons,List.find?_cons,scanTag]
    by_cases ht : t = toRef
    · rw [if_pos ht,decide_eq_false (fun h => h.1 ht)]
      exact ih
    · rw [if_neg ht,hvalid.match_eq]
      by_cases hm : Match tagPattern t = some true
      · rw [decide_eq_true hm,decide_eq_true ⟨ht,rfl⟩]
        rfl
      · rw [decide_eq_false hm,decide_eq_false (fun h => absurd h.2 (by decide))]
        exact ih

/-- The tags of a repository, newest first, with those after and before a release. -/
structure TagHistory where
  newer : List Bytes
  toRef : Bytes
  older : List Bytes
  once : toRef ∉ newer ∧ toRef ∉ older
  named : [] ∉ newer

namespace TagHistory
variable (h : TagHistory) (tagPattern : Bytes)

def tags : List Bytes := h.newer ++ h.toRef :: h.older

/-- The newest tag before the release that matches, or the empty string. -/
def predecessor : Bytes := (h.older.find? fun t => Match tagPattern t = some true).getD []

/-- What the adapters look for: the newest tag of all, other than the release, that matches. -/
def newest : Bytes := (h.tags.find? fun t => t ≠ h.toRef ∧ Match tagPattern t = some true).getD []

lemma find?_others {ts : List Bytes} (hts : h.toRef ∉ ts) :
    ts.find? (fun t => t ≠ h.toRef ∧ Match tagPattern t = some true) =
      ts.find? fun t => Match tagPattern t = some true := by
  refine List.find?_congr fun t ht => ?_
  have hne : t ≠ h.toRef := fun heq => hts (heq ▸ ht)
  simp [hne]

lemma newest_eq : h.newest tagPattern = ((h.newer.find? fun t => Match tagPattern t = some true).or
    (h.older.find? fun t => Match tagPattern t = some true)).getD [] := by
  obtain ⟨hnewer,holder⟩ := h.once
  have hself : decide (h.toRef ≠ h.toRef ∧ Match tagPattern h.toRef = some true) = false := by simp
  rw [newest,tags,List.find?_append,List.find?_cons,hself,h.find?_others tagPattern hnewer]
  simp only [h.find?_others tagPattern holder]

/-- It is the tag before the release just when no tag after the release matches. -/
theorem newest_iff : (h.newest tagPattern = h.predecessor tagPattern ∧ h.newest tagPattern ∉ h.newer) ↔
    ∀ t ∈ h.newer, Match tagPattern t ≠ some true := by
  rw [newest_eq]
  cases hfind : h.newer.find? fun t => Match tagPattern t = some true with
  | some t =>
    have hmem := List.mem_of_find?_eq_some hfind
    have hmatch := List.find?_some hfind
    refine iff_of_false (fun hr => hr.2 hmem) fun hall => hall t hmem ?_
    exact of_decide_eq_true hmatch
  | none =>
    have hnone := List.find?_eq_none.mp hfind
    refine iff_of_true ⟨rfl,fun hmem => ?_⟩ fun t ht hm => hnone t ht (decide_eq_true hm)
    rw [Option.none_or] at hmem
    cases hold : h.older.find? fun t => Match tagPattern t = some true with
    | none =>
      rw [hold] at hmem
      exact h.named hmem
    | some t =>
      rw [hold] at hmem
      have hmatch := List.find?_some hold
      exact hnone t hmem hmatch

end TagHistory

/-- On hosts that serve the tags in pages both adapters return one tag: that before the release, and no newer one,
just when no newer one matches the pattern. -/
theorem LatestTagBefore_iff (h : TagHistory) {tagPattern : Bytes} (hvalid : Valid tagPattern)
    (pages : List (List Bytes)) (hpages : pages.flatten = h.tags)
    (pages' : List (List (Option Bytes))) (hpages' : pages'.flatten.filterMap id = h.tags) {repo : Bytes}
    (hrepo : (GitHub.splitRepo repo).isSome) {fuel : ℕ} (hfuel : pages.length + pages'.length ≤ fuel) :
    ∃ r, GitHub.LatestTagBefore (fun _ _ opts => .ok (servePage pages opts.page)) fuel repo h.toRef tagPattern =
        some (.ok r) ∧
      GitLab.LatestTagBefore (fun _ opts => .ok (servePage pages' opts.page)) fuel repo h.toRef tagPattern =
        some (.ok r) ∧
      ((r = h.predecessor tagPattern ∧ r ∉ h.newer) ↔ ∀ t ∈ h.newer, Match tagPattern t ≠ some true) := by
  have hne : h.tags ≠ [] := List.append_ne_nil_of_right_ne_nil _ (List.cons_ne_nil _ _)
  have hflatten : (pages'.map (List.filterMap id)).flatten = h.tags := by
    rw [← hpages',List.filterMap_flatten]
  have hfirst : ∀ ps : List (List Bytes), ps.flatten = h.tags → ps ≠ [] := by
    rintro _ hps rfl
    exact hne hps.symm
  refine ⟨h.newest tagPattern,?_,?_,h.newest_iff tagPattern⟩
  · obtain ⟨⟨owner,name⟩,howner⟩ := Option.isSome_iff_exists.mp hrepo
    have hrun := loop_first (scanTag h.toRef tagPattern) Except.error (fun _ => .ok []) (hfirst pages hpages)
      (Nat.zero_le 1) (Nat.le_of_add_right_le hfuel) ()
    rw [outcome_scanTag hvalid,hpages] at hrun
    rw [GitHub.LatestTagBefore,howner]
    exact hrun
  · have hlength : (pages'.map (List.filterMap id)).length ≤ fuel := by
      rw [List.length_map]
      omega
    have hrun := loop_first (scanTag h.toRef tagPattern) Except.error (fun _ => .ok []) (hfirst _ hflatten)
      (Nat.le_refl 1) hlength ()
    rw [outcome_scanTag hvalid,hflatten] at hrun
    rw [GitLab.LatestTagBefore]
    refine Eq.trans (congrArg (fun l => latestTag h.toRef tagPattern l fuel 1) (funext fun page => ?_)) hrun
    exact congrArg Except.ok (servePage_filterMap id pages' page)

/-- A release of an older line, made after a newer line had begun. -/
def backport (newer : List Bytes) (h : lit "v1.4.2" ∉ newer) (h' : [] ∉ newer) : TagHistory :=
  ⟨newer,lit "v1.4.2",[lit "v1.4.1"],⟨h,by decide⟩,h'⟩

/-- The tag before v1.4.2 is v1.4.1, but v2.0.0 is returned. -/
theorem newer_tag_returned :
    GitHub.LatestTagBefore (fun _ _ opts => .ok (servePage [[lit "v2.0.0"],[lit "v1.4.2",lit "v1.4.1"]] opts.page)) 2
        (lit "org/app") (lit "v1.4.2") (lit "v*") = some (.ok (lit "v2.0.0")) ∧
      GitLab.LatestTagBefore
        (fun _ opts => .ok (servePage [[some (lit "v2.0.0"),some (lit "v1.4.2"),some (lit "v1.4.1")]] opts.page)) 2
        (lit "org/app") (lit "v1.4.2") (lit "v*") = some (.ok (lit "v2.0.0")) ∧
      (backport [lit "v2.0.0"] (by decide) (by decide)).predecessor (lit "v*") = lit "v1.4.1" := by
  refine ⟨?_,?_,by decide +kernel⟩
  all_goals rfl

theorem backport_found : ∃ r,
    GitHub.LatestTagBefore (fun _ _ opts => .ok (servePage [[lit "beta"],[lit "v1.4.2",lit "v1.4.1"]] opts.page)) 3
        (lit "org/app") (lit "v1.4.2") (lit "v*") = some (.ok r) ∧
      GitLab.LatestTagBefore
        (fun _ opts => .ok (servePage [[some (lit "beta"),none,some (lit "v1.4.2"),some (lit "v1.4.1")]] opts.page)) 3
        (lit "org/app") (lit "v1.4.2") (lit "v*") = some (.ok r) ∧
      ((r = (backport [lit "beta"] (by decide) (by decide)).predecessor (lit "v*") ∧ r ∉ [lit "beta"]) ↔
        ∀ t ∈ [lit "beta"], Match (lit "v*") t ≠ some true) :=
  LatestTagBefore_iff (backport [lit "beta"] (by decide) (by decide)) (by decide +kernel)
    [[lit "beta"],[lit "v1.4.2",lit "v1.4.1"]] rfl
    [[some (lit "beta"),none,some (lit "v1.4.2"),some (lit "v1.4.1")]] rfl (by decide +kernel) (Nat.le_refl 3)

end Vcs
