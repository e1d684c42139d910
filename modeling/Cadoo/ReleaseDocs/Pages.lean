import Cadoo.ReleaseDocs.Publishers

/-! Which artifacts the pages publisher writes, and when these are the ones whose path is inside of its directory. -/
namespace ReleaseDocs.Pages
open Bytes Vcs GoPath

variable {W : Type}

/-- The branch and the directory of the settings, or the defaults. -/
def branchOf (cfg : PagesPublishTarget) : Bytes := if cfg.branch = [] then lit "gh-pages" else cfg.branch
def dirOf (cfg : PagesPublishTarget) : Bytes := if cfg.dir = [] then lit "docs" else cfg.dir

/-- The call that writes an artifact. -/
def upsert (rc : ReleaseContext W) (branch dir : Bytes) (a : Artifact) : PublishTarget × Write :=
  (.pages,.upsertFile rc.repo branch (commitMsg rc.toRef a) ⟨pathOf dir rc.toRef a,a.content⟩)

/-- The artifacts that are passed on to the provider. -/
def written (dir toRef : Bytes) (a : Artifact) : Bool :=
  decide (a.content ≠ []) && hasPrefix (pathOf dir toRef a) (dir ++ lit "/")

/-- The artifacts that belong into the directory. -/
def wanted (dir toRef : Bytes) (a : Artifact) : Bool :=
  decide (a.content ≠ []) && decide (Inside (Clean dir) (pathOf dir toRef a))

lemma dirOf_ne_nil (cfg : PagesPublishTarget) : dirOf cfg ≠ [] := by
  rw [dirOf]
  split
  · decide
  · next h => exact h

lemma publishEach_writes {rc : ReleaseContext W} {bc : BranchCommitter W} {branch dir : Bytes}
    (hok : ∀ msg file host, (bc.upsertFile rc.repo branch msg file host).1 = none) (arts : List Artifact) (w : World W) :
    (publishEach rc bc branch dir arts w).2.writes =
      w.writes ++ (arts.filter (written dir rc.toRef)).map (upsert rc branch dir) := by
  induction arts generalizing w with
  | nil => exact (List.append_nil _).symm
  | cons a arts ih =>
    rw [publishEach]
    split
    · next hempty =>
      rw [ih,List.filter_cons_of_neg (by simp [written,hempty])]
    · next hcontent =>
      dsimp only
      split
      · next hout =>
        rw [ih,List.filter_cons_of_neg (by simp [written,hout])]
      · next hin =>
        have hwritten : written dir rc.toRef a = true := by
          rw [written,Bool.and_eq_true,decide_eq_true_iff]
          exact ⟨hcontent,Bool.not_eq_false _ ▸ hin⟩
        split
        · next err w' heq =>
          have herr := congrArg Prod.fst heq
          rw [World.issue,hok] at herr
          exact absurd herr (by simp)
        · next w' heq =>
          rw [ih,World.writes_of_issue heq,List.filter_cons_of_pos hwritten,List.map_cons,List.append_assoc]
          rfl

/-- Two choices out of a list give the same images exactly when they agree, if the image tells how both choose. -/
lemma map_filter_eq_iff {α β : Type} {f : α → β} {p q : α → Bool} {l : List α}
    (hp : ∀ a b, f a = f b → p a = p b) (hq : ∀ a b, f a = f b → q a = q b) :
    (l.filter p).map f = (l.filter q).map f ↔ ∀ a ∈ l, p a = q a := by
  constructor
  · intro h a ha
    refine Bool.eq_iff_iff.mpr ⟨fun hpa => ?_,fun hqa => ?_⟩
    · have hmem : f a ∈ (l.filter q).map f := h ▸ List.mem_map_of_mem (List.mem_filter.mpr ⟨ha,hpa⟩)
      obtain ⟨b,hb,hab⟩ := List.mem_map.mp hmem
      rw [hq a b hab.symm]
      exact (List.mem_filter.mp hb).2
    · have hmem : f a ∈ (l.filter p).map f := h ▸ List.mem_map_of_mem (List.mem_filter.mpr ⟨ha,hqa⟩)
      obtain ⟨b,hb,hab⟩ := List.mem_map.mp hmem
      rw [hp a b hab.symm]
      exact (List.mem_filter.mp hb).2
  · intro h
    rw [List.filter_congr h]

lemma pathOf_clean {dir : Bytes} (hdir : dir ≠ []) (toRef : Bytes) (a : Artifact) :
    ∃ q, pathOf dir toRef a = Clean q := by
  rw [pathOf,Join,List.filter_cons_of_pos (by simpa using hdir)]
  exact ⟨_,rfl⟩

/-- An artifact is written just when it should be, unless the directory is not written as it is cleaned or the path
goes up from it. -/
lemma written_eq_wanted_iff {dir : Bytes} (hdir : dir ≠ []) (toRef : Bytes) (a : Artifact) :
    written dir toRef a = wanted dir toRef a ↔ (a.content ≠ [] →
      if Plain dir then ¬ Climbs dir (pathOf dir toRef a) else ¬ Inside dir (pathOf dir toRef a)) := by
  obtain ⟨q,hq⟩ := pathOf_clean hdir toRef a
  rw [Bool.eq_iff_iff,written,wanted,Bool.and_eq_true,Bool.and_eq_true,decide_eq_true_iff,decide_eq_true_iff,
    inside_Clean,and_congr_right_iff,hq,hasPrefix_slash_iff hdir]
  refine imp_congr_right fun _ => ?_
  split
  · next hplain =>
    rw [and_iff_right hplain,Inside,Climbs]
    constructor
    · exact fun h hclimbs => (h.mp hclimbs.1).2 hclimbs.2
    · exact fun h => ⟨fun hcontinues => ⟨hcontinues,fun hup => h ⟨hcontinues,hup⟩⟩,And.left⟩
  · next hplain =>
    constructor
    · exact fun h hin => hplain (h.mpr hin).1
    · exact fun h => iff_of_false (fun hin => hplain hin.1) h

/-- With every file taken by the provider, the files written are those whose path is strictly inside of the directory
exactly when the directory is written as it is cleaned, is neither `.` nor `/` and no path goes up from it, or
otherwise no path is inside of it. -/
theorem publish_confined_iff {rc : ReleaseContext W} {bc : BranchCommitter W}
    (hon : rc.config.publish.pages.enabled = true) (hbc : rc.provider.branchCommitter = some bc)
    (hok : ∀ branch msg file host, (bc.upsertFile rc.repo branch msg file host).1 = none) (arts : List Artifact)
    (w : World W) :
    (Publish rc arts w).2.writes = w.writes ++ (arts.filter (wanted (dirOf rc.config.publish.pages) rc.toRef)).map
        (upsert rc (branchOf rc.config.publish.pages) (dirOf rc.config.publish.pages)) ↔
      ∀ a ∈ arts, a.content ≠ [] →
        if Plain (dirOf rc.config.publish.pages) then
          ¬ Climbs (dirOf rc.config.publish.pages) (pathOf (dirOf rc.config.publish.pages) rc.toRef a)
        else ¬ Inside (dirOf rc.config.publish.pages) (pathOf (dirOf rc.config.publish.pages) rc.toRef a) := by
  have hrun : Publish rc arts w =
      publishEach rc bc (branchOf rc.config.publish.pages) (dirOf rc.config.publish.pages) arts w := by
    rw [Publish]
    dsimp only
    rw [if_neg (by rw [hon]; decide),hbc]
    rfl
  have hpath : ∀ {a b : Artifact}, upsert rc (branchOf rc.config.publish.pages) (dirOf rc.config.publish.pages) a =
      upsert rc (branchOf rc.config.publish.pages) (dirOf rc.config.publish.pages) b →
      pathOf (dirOf rc.config.publish.pages) rc.toRef a = pathOf (dirOf rc.config.publish.pages) rc.toRef b ∧
        a.content = b.content := by
    intro a b h
    injection (Prod.mk.inj h).2 with _ _ _ hfile
    exact FileWrite.mk.inj hfile
  rw [hrun,publishEach_writes (hok _),List.append_cancel_left_eq,map_filter_eq_iff]
  · exact forall₂_congr fun a _ => written_eq_wanted_iff (dirOf_ne_nil _) rc.toRef a
  · intro a b h
    rw [written,written,(hpath h).1,(hpath h).2]
  · intro a b h
    rw [wanted,wanted,(hpath h).1,(hpath h).2]

section Examples

/-- A provider that takes every file. -/
def committer : BranchCommitter Unit where
  upsertFile _ _ _ _ host := (none,host)
  openOrUpdatePR _ _ _ _ _ host := (.ok 1,host)

def site (dir toRef : Bytes) : ReleaseContext Unit where
  repo := lit "acme/app"
  org := []
  fromRef := lit "v1.1.0"
  toRef := toRef
  bump := .minor
  commits := []
  mergedPRs := []
  config := { publish := { pages := { enabled := true, dir := dir } } }
  provider := { kind := KindGitHub, branchCommitter := some committer }
  groupedModel := []

def changes : List Artifact := [⟨.changelog,lit "Two fixes.",[]⟩]

theorem plain_dir_confined : (Publish (site [] (lit "v1.2.0")) changes { host := () }).2.writes =
    [] ++ (changes.filter (wanted (lit "docs") (lit "v1.2.0"))).map
      (upsert (site [] (lit "v1.2.0")) (lit "gh-pages") (lit "docs")) :=
  (publish_confined_iff rfl rfl (fun _ _ _ _ => rfl) changes { host := () }).mpr (by decide +kernel)

/-- A slash at the end of the directory, and nothing is written; up from a parent directory, and a file outside of it
is. -/
theorem trailing_slash_unwritten :
    ((Publish (site (lit "docs/") (lit "v1.2.0")) changes { host := () }).2.writes = [] ∧
      ∀ a ∈ changes, Inside (Clean (lit "docs/")) (pathOf (lit "docs/") (lit "v1.2.0") a)) ∧
    (Publish (site (lit "..") (lit "../../etc")) changes { host := () }).2.writes ≠ [] ∧
      ∀ a ∈ changes, ¬ Inside (Clean (lit "..")) (pathOf (lit "..") (lit "../../etc") a) := by
  decide +kernel

end Examples

end ReleaseDocs.Pages
