import Mathlib.Data.List.Perm.Basic
import Cadoo.Lib.Steps
import Cadoo.Vcs.BranchCommit

/-! Check runs on GitHub: the one of a name on a commit is looked for and updated, or else created. Tools that run at
the same time report at the same time, and their calls take turns in any way. -/
namespace Vcs
open Bytes

/-- A check run as the host keeps it. -/
structure HostedCheck where
  id : ℕ
  headSHA : Bytes
  name : Bytes
  status : Bytes
  conclusion : Bytes
  title : Bytes
  summary : Bytes
  detailsURL : Bytes
  deriving DecidableEq

/-- What a call says of a check run. -/
structure CheckRunOptions where
  name : Bytes
  status : Bytes
  conclusion : Option Bytes
  title : Bytes
  summary : Bytes
  detailsURL : Option Bytes

/-- What a call leaves out stays as it is. -/
def HostedCheck.withOptions (c : HostedCheck) (o : CheckRunOptions) : HostedCheck where
  id := c.id
  headSHA := c.headSHA
  name := o.name
  status := o.status
  conclusion := o.conclusion.getD c.conclusion
  title := o.title
  summary := o.summary
  detailsURL := o.detailsURL.getD c.detailsURL

/-- The check runs of a repository, by the commits they are on. -/
structure Checks where
  runs : List HostedCheck
  nextID : ℕ

namespace Checks
variable (r : Checks)

def named (sha name : Bytes) : List HostedCheck := r.runs.filter fun c => c.headSHA = sha && c.name = name

def list (sha name : Bytes) : Except Err (List HostedCheck) :=
  if sha = [] then .error notFound else .ok (r.named sha name)

def update (id : ℕ) (o : CheckRunOptions) : Except Err Unit × Checks :=
  if id ∈ r.runs.map HostedCheck.id then
    (.ok (),{ r with runs := r.runs.map fun c => if c.id = id then c.withOptions o else c })
  else (.error notFound,r)

def create (sha : Bytes) (o : CheckRunOptions) : Except Err Unit × Checks :=
  (.ok (),⟨r.runs ++ [HostedCheck.withOptions ⟨r.nextID,sha,[],[],[],[],[],[]⟩ o],r.nextID+1⟩)

end Checks
end Vcs

namespace GitHub
open Bytes Vcs

def mapCheckStatus : CheckRunStatus → Bytes × Bytes
  | .queued => (lit "queued",[])
  | .running => (lit "in_progress",[])
  | .succeeded => (lit "completed",lit "success")
  | .failed => (lit "completed",lit "failure")
  | .neutral => (lit "completed",lit "neutral")

def checkRunOptions (run : CheckRun) : CheckRunOptions where
  name := run.name
  status := (mapCheckStatus run.status).1
  conclusion := if (mapCheckStatus run.status).2 = [] then none else some (mapCheckStatus run.status).2
  title := run.title
  summary := run.summary
  detailsURL := if run.url = [] then none else some run.url

/-- The first call: the check runs of the name there are. -/
def listCheckRuns (owner name : Bytes) (pr : PullRequest) (run : CheckRun) (h : HostOf Checks) :
    Except Err (List HostedCheck) × HostOf Checks :=
  h.query owner name fun r => r.list pr.headSHA run.name

/-- The second call: the first one listed is updated. -/
def writeCheckRun (owner name : Bytes) (pr : PullRequest) (run : CheckRun) (existing : List HostedCheck)
    (h : HostOf Checks) : Except Err Unit × HostOf Checks :=
  h.call owner name fun r =>
    match existing with
    | c :: _ => r.update c.id (checkRunOptions run)
    | [] => r.create pr.headSHA (checkRunOptions run)

def UpsertCheckRun (pr : PullRequest) (run : CheckRun) (h : HostOf Checks) : Option Err × HostOf Checks :=
  match splitRepo pr.repoFullName with
  | none => (some invalidRepo,h)
  | some (owner,name) =>
    match listCheckRuns owner name pr run h with
    | (.error err,h) => (some (lit "list check runs: " ++ err),h)
    | (.ok existing,h) =>
      match writeCheckRun owner name pr run existing h with
      | (.error err,h) => (some err,h)
      | (.ok _,h) => (none,h)

end GitHub

namespace Vcs
open Bytes

/-- A check run that says what a report did. -/
structure HostedCheck.Shows (c : HostedCheck) (run : CheckRun) : Prop where
  status : c.status = (GitHub.mapCheckStatus run.status).1
  conclusion : (GitHub.mapCheckStatus run.status).2 ≠ [] → c.conclusion = (GitHub.mapCheckStatus run.status).2
  title : c.title = run.title
  summary : c.summary = run.summary
  detailsURL : run.url ≠ [] → c.detailsURL = run.url

lemma HostedCheck.withOptions_shows (c : HostedCheck) (run : CheckRun) :
    (c.withOptions (GitHub.checkRunOptions run)).Shows run where
  status := rfl
  conclusion h := by simp [withOptions,GitHub.checkRunOptions,h]
  title := rfl
  summary := rfl
  detailsURL h := by simp [withOptions,GitHub.checkRunOptions,h]

namespace Checks
variable {r r' : Checks} {sha name : Bytes} {run : CheckRun}

/-- Where a check run is found. -/
def place (c : HostedCheck) : ℕ × Bytes × Bytes := (c.id,c.headSHA,c.name)

/-- Every check run has a number of its own. -/
structure Numbered (r : Checks) : Prop where
  nodup : (r.runs.map HostedCheck.id).Nodup
  fresh : ∀ c ∈ r.runs, c.id < r.nextID

/-- Only what there is of one name on one commit has changed, and no check run is gone from its place. -/
structure Grown (sha name : Bytes) (r r' : Checks) : Prop where
  numbered : r'.Numbered
  places : r.runs.map place ⊆ r'.runs.map place
  others : ∀ sha' name', (sha',name') ≠ (sha,name) → r'.named sha' name' = r.named sha' name'

/-- What there is of one name on one commit is a check run that shows a report; all else is as it was. -/
structure Reported (sha : Bytes) (run : CheckRun) (r r' : Checks) : Prop where
  numbered : r'.Numbered
  shown : ∃ c, r'.named sha run.name = [c] ∧ c.Shows run
  others : ∀ sha' name', (sha',name') ≠ (sha,run.name) → r'.named sha' name' = r.named sha' name'

lemma mem_named {c : HostedCheck} : c ∈ r.named sha name ↔ c ∈ r.runs ∧ c.headSHA = sha ∧ c.name = name := by
  simp [named]

lemma Numbered.create (h : r.Numbered) (o : CheckRunOptions) : (r.create sha o).2.Numbered := by
  constructor
  · change ((r.runs ++ [_]).map HostedCheck.id).Nodup
    rw [List.map_append,List.nodup_append]
    refine ⟨h.nodup,List.nodup_singleton _,fun a ha b hb hab => ?_⟩
    obtain ⟨c,hc,rfl⟩ := List.mem_map.mp ha
    obtain rfl := List.mem_singleton.mp hb
    have hless := h.fresh c hc
    rw [hab] at hless
    exact Nat.lt_irrefl _ hless
  · intro c hc
    obtain hc | hc := List.mem_append.mp hc
    · exact Nat.lt_succ_of_lt (h.fresh c hc)
    · obtain rfl := List.mem_singleton.mp hc
      exact Nat.lt_succ_self _

lemma create_named (o : CheckRunOptions) (sha' name' : Bytes) :
    (r.create sha o).2.named sha' name' = r.named sha' name' ++
      if (sha',name') = (sha,o.name) then [HostedCheck.withOptions ⟨r.nextID,sha,[],[],[],[],[],[]⟩ o] else [] := by
  change List.filter _ (r.runs ++ [_]) = _
  rw [List.filter_append,named]
  congr 1
  split
  · next heq =>
    obtain ⟨rfl,rfl⟩ := Prod.mk.inj heq
    exact List.filter_eq_self.mpr fun c hc => by simp [List.mem_singleton.mp hc,HostedCheck.withOptions]
  · next hne =>
    refine List.filter_eq_nil_iff.mpr fun c hc heq => hne ?_
    rw [List.mem_singleton.mp hc,Bool.and_eq_true,decide_eq_true_eq,decide_eq_true_eq] at heq
    exact Prod.ext heq.1.symm heq.2.symm

lemma Numbered.update (h : r.Numbered) (id : ℕ) (o : CheckRunOptions) : (r.update id o).2.Numbered := by
  have hid : ∀ c : HostedCheck, (if c.id = id then c.withOptions o else c).id = c.id := fun c => by
    split <;> rfl
  rw [Checks.update]
  split
  · constructor
    · have hids : (r.runs.map fun c => if c.id = id then c.withOptions o else c).map HostedCheck.id =
          r.runs.map HostedCheck.id := by
        rw [List.map_map]
        exact List.map_congr_left fun c _ => hid c
      exact hids ▸ h.nodup
    · intro c hc
      obtain ⟨d,hd,rfl⟩ := List.mem_map.mp hc
      rw [hid]
      exact h.fresh d hd
  · exact h

/-- An update that leaves the name leaves every check run in its place. -/
lemma place_update (h : r.Numbered) {c : HostedCheck} (hc : c ∈ r.runs) {o : CheckRunOptions} (ho : o.name = c.name) :
    ∀ d ∈ r.runs, place (if d.id = c.id then d.withOptions o else d) = place d := by
  intro d hd
  split
  · next hid =>
    obtain rfl := List.inj_on_of_nodup_map h.nodup hd hc hid
    exact congrArg (fun name => (d.id,d.headSHA,name)) ho
  · rfl

/-- An update that leaves the name: the check run changes where it is. -/
lemma update_named (h : r.Numbered) {c : HostedCheck} (hc : c ∈ r.runs) {o : CheckRunOptions} (ho : o.name = c.name)
    (sha' name' : Bytes) :
    (r.update c.id o).2.named sha' name' =
      (r.named sha' name').map fun d => if d.id = c.id then d.withOptions o else d := by
  rw [update,if_pos (List.mem_map_of_mem hc)]
  change List.filter _ (r.runs.map _) = _
  rw [List.filter_map,named]
  congr 1
  refine List.filter_congr fun d hd => ?_
  have hplace := (Prod.mk.inj (place_update h hc ho d hd)).2
  simp only [Function.comp_apply,(Prod.mk.inj hplace).1,(Prod.mk.inj hplace).2]

lemma create_grown (h : r.Numbered) (o : CheckRunOptions) : Grown sha o.name r (r.create sha o).2 where
  numbered := h.create o
  places := by
    change _ ⊆ (r.runs ++ [_]).map place
    rw [List.map_append]
    exact List.subset_append_left _ _
  others sha' name' hne := by
    rw [create_named,if_neg hne]
    exact List.append_nil _

lemma update_grown (h : r.Numbered) {c : HostedCheck} (hc : c ∈ r.runs) {o : CheckRunOptions} (ho : o.name = c.name) :
    Grown c.headSHA c.name r (r.update c.id o).2 where
  numbered := h.update c.id o
  places := by
    rw [update,if_pos (List.mem_map_of_mem hc)]
    change _ ⊆ (r.runs.map _).map place
    rw [List.map_map]
    exact fun x hx => (List.map_congr_left (place_update h hc ho)) ▸ hx
  others sha' name' hne := by
    rw [update_named h hc ho]
    refine (List.map_congr_left fun d hd => if_neg fun hid => hne ?_).trans (List.map_id' _)
    obtain ⟨hmem,rfl,rfl⟩ := mem_named.mp hd
    rw [List.inj_on_of_nodup_map h.nodup hmem hc hid]

/-- Whatever was listed, as long as it is where it was: only what there is of the name changes. -/
lemma write_grown (h : r.Numbered) {existing : List HostedCheck} {r' : Checks} {res : Except Err Unit}
    (hw : (match existing with
      | c :: _ => r.update c.id (GitHub.checkRunOptions run)
      | [] => r.create sha (GitHub.checkRunOptions run)) = (res,r'))
    (hplaced : ∀ c ∈ existing, (c.id,sha,run.name) ∈ r.runs.map place) :
    res = .ok () ∧ Grown sha run.name r r' := by
  split at hw
  · next c rest =>
    obtain ⟨d,hd,hplace⟩ := List.mem_map.mp (hplaced c List.mem_cons_self)
    obtain ⟨hid,hkey⟩ := Prod.mk.inj hplace
    obtain ⟨rfl,hname⟩ := Prod.mk.inj hkey
    rw [← hid] at hw
    obtain ⟨rfl,rfl⟩ : _ ∧ _ := ⟨congrArg Prod.fst hw,congrArg Prod.snd hw⟩
    refine ⟨?_,hname ▸ update_grown h hd hname.symm⟩
    rw [update,if_pos (List.mem_map_of_mem hd)]
  · obtain ⟨rfl,rfl⟩ : _ ∧ _ := ⟨congrArg Prod.fst hw,congrArg Prod.snd hw⟩
    exact ⟨rfl,create_grown h (GitHub.checkRunOptions run)⟩

/-- Written to the check run that is there, or to a new one. -/
lemma write_reported (h : r.Numbered) (hone : (r.named sha run.name).length ≤ 1) {r' : Checks} {res : Except Err Unit}
    (hw : (match r.named sha run.name with
      | c :: _ => r.update c.id (GitHub.checkRunOptions run)
      | [] => r.create sha (GitHub.checkRunOptions run)) = (res,r')) :
    res = .ok () ∧ Reported sha run r r' := by
  have hplaced : ∀ c ∈ r.named sha run.name, (c.id,sha,run.name) ∈ r.runs.map place := by
    intro c hc
    obtain ⟨hmem,rfl,hname⟩ := mem_named.mp hc
    exact List.mem_map.mpr ⟨c,hmem,congrArg (fun name => (c.id,c.headSHA,name)) hname⟩
  obtain ⟨hok,hgrown⟩ := write_grown h hw hplaced
  refine ⟨hok,hgrown.numbered,?_,hgrown.others⟩
  split at hw
  · next c rest hlist =>
    obtain rfl : rest = [] := by
      rw [hlist,List.length_cons] at hone
      exact List.length_eq_zero_iff.mp (by omega)
    obtain ⟨hc,-,hname⟩ := mem_named.mp (hlist ▸ List.mem_singleton_self c)
    refine ⟨_,?_,c.withOptions_shows run⟩
    obtain rfl : (r.update c.id _).2 = r' := congrArg Prod.snd hw
    rw [update_named h hc (o := GitHub.checkRunOptions run) hname.symm,hlist,List.map_singleton,if_pos rfl]
  · next hlist =>
    refine ⟨HostedCheck.withOptions ⟨r.nextID,sha,[],[],[],[],[],[]⟩ (GitHub.checkRunOptions run),?_,
      HostedCheck.withOptions_shows _ run⟩
    obtain rfl : (r.create sha _).2 = r' := congrArg Prod.snd hw
    rw [create_named,hlist,List.nil_append]
    exact if_pos rfl

end Checks

/-- The names Cadoo reports under. -/
def isCadoo (name : Bytes) : Bool := name = lit "cadoo" || hasPrefix name (lit "cadoo/")

/-- A report under way, with what was listed for it. -/
structure Upsert where
  owner : Bytes
  name : Bytes
  pr : PullRequest
  run : CheckRun
  existing : Option (List HostedCheck) := none

def Upsert.key (u : Upsert) : Bytes × Bytes := (u.pr.headSHA,u.run.name)

/-- The host and the reports under way; `said` has what was last reported of a name on a commit, unless an error came
back. -/
structure Reporting where
  host : HostOf Checks
  inFlight : List Upsert := []
  said : GoMap (Bytes × Bytes) CheckRun := ∅

/-- A report begins, lists, or writes, with what befalls the call; others keep check runs of their own. -/
inductive CheckEvent where
  | begin (pr : PullRequest) (run : CheckRun)
  | list (i : ℕ) (fault : Option Fault)
  | write (i : ℕ) (fault : Option Fault)
  | create (sha : Bytes) (o : CheckRunOptions)
  | update (id : ℕ) (o : CheckRunOptions)

namespace Reporting

def step (s : Reporting) : CheckEvent → Option Reporting
  | .begin pr run =>
    match GitHub.splitRepo pr.repoFullName with
    | none => some s
    | some (owner,name) => some { s with inFlight := s.inFlight ++ [⟨owner,name,pr,run,none⟩] }
  | .list i fault =>
    match s.inFlight[i]? with
    | some ⟨owner,name,pr,run,none⟩ =>
      match GitHub.listCheckRuns owner name pr run (s.host.facing [fault] none) with
      | (.error _,h) => some { s with host := h, inFlight := s.inFlight.eraseIdx i }
      | (.ok existing,h) =>
        some { s with host := h, inFlight := s.inFlight.set i ⟨owner,name,pr,run,some existing⟩ }
    | _ => none
  | .write i fault =>
    match s.inFlight[i]? with
    | some ⟨owner,name,pr,run,some existing⟩ =>
      match GitHub.writeCheckRun owner name pr run existing (s.host.facing [fault] none) with
      | (.error _,h) => some ⟨h,s.inFlight.eraseIdx i,s.said.erase (pr.headSHA,run.name)⟩
      | (.ok _,h) => some ⟨h,s.inFlight.eraseIdx i,s.said.insert (pr.headSHA,run.name) run⟩
    | _ => none
  | .create sha o =>
    if isCadoo o.name then none else some { s with host := s.host.clear (s.host.repository.create sha o).2 }
  | .update id o =>
    if isCadoo o.name = false ∧ (s.host.repository.runs.any fun c => c.id = id && c.name = o.name) then
      some { s with host := s.host.clear (s.host.repository.update id o).2 }
    else none

/-- A report of a name on a commit does not begin while another is under way. -/
def Alone (sha name : Bytes) (s : Reporting) : CheckEvent → Prop
  | .begin pr run => (pr.headSHA,run.name) = (sha,name) → (sha,name) ∉ s.inFlight.map Upsert.key
  | _ => True

instance (sha name : Bytes) (s : Reporting) : (ev : CheckEvent) → Decidable (Alone sha name s ev)
  | .begin pr run =>
    inferInstanceAs (Decidable ((pr.headSHA,run.name) = (sha,name) → (sha,name) ∉ s.inFlight.map Upsert.key))
  | .list _ _ => .isTrue trivial
  | .write _ _ => .isTrue trivial
  | .create _ _ => .isTrue trivial
  | .update _ _ => .isTrue trivial

/-- One check run at most of a name on a commit, what was listed of it is what there is, and what was said is what is
shown; whatever else was listed is where it was. -/
structure Exact (sha name : Bytes) (s : Reporting) : Prop where
  numbered : s.host.repository.Numbered
  one : (s.host.repository.named sha name).length ≤ 1
  alone : s.inFlight.countP (fun u => u.key = (sha,name)) ≤ 1
  placed : ∀ u ∈ s.inFlight, ∀ l, u.existing = some l → ∀ c ∈ l, (c.id,u.key) ∈ s.host.repository.runs.map Checks.place
  listed : ∀ u ∈ s.inFlight, u.key = (sha,name) → ∀ l, u.existing = some l → l = s.host.repository.named sha name
  said : ∀ run, s.said.lookup (sha,name) = some run → ∃ c, s.host.repository.named sha name = [c] ∧ c.Shows run

variable {s t : Reporting} {sha name : Bytes} {host : HostOf Checks}

/-- The host is left as it was. -/
lemma Exact.same (h : s.Exact sha name) (hsame : host.repository = s.host.repository) :
    Exact sha name { s with host := host } :=
  ⟨hsame ▸ h.numbered,hsame ▸ h.one,h.alone,hsame ▸ h.placed,hsame ▸ h.listed,hsame ▸ h.said⟩

/-- What changes is of another name or commit. -/
lemma Exact.elsewhere (h : s.Exact sha name) {sha' name' : Bytes}
    (hgrown : Checks.Grown sha' name' s.host.repository host.repository) (hne : (sha,name) ≠ (sha',name')) :
    Exact sha name { s with host := host } := by
  have hsame := hgrown.others sha name hne
  exact ⟨hgrown.numbered,hsame ▸ h.one,h.alone,fun u hu l hl c hc => hgrown.places (h.placed u hu l hl c hc),
    hsame ▸ h.listed,hsame ▸ h.said⟩

lemma Exact.drop (h : s.Exact sha name) (i : ℕ) : Exact sha name { s with inFlight := s.inFlight.eraseIdx i } where
  numbered := h.numbered
  one := h.one
  alone := ((List.eraseIdx_sublist _ _).countP_le).trans h.alone
  placed u hu := h.placed u (List.mem_of_mem_eraseIdx hu)
  listed u hu := h.listed u (List.mem_of_mem_eraseIdx hu)
  said := h.said

lemma Exact.forget (h : s.Exact sha name) (key : Bytes × Bytes) : Exact sha name { s with said := s.said.erase key } where
  numbered := h.numbered
  one := h.one
  alone := h.alone
  placed := h.placed
  listed := h.listed
  said run hlookup := by
    by_cases hkey : (sha,name) = key
    · rw [hkey,AList.lookup_erase] at hlookup
      cases hlookup
    · rw [AList.lookup_erase_ne hkey] at hlookup
      exact h.said run hlookup

/-- What was said is of another name or commit. -/
lemma Exact.note (h : s.Exact sha name) {key : Bytes × Bytes} (hne : (sha,name) ≠ key) (run : CheckRun) :
    Exact sha name { s with said := s.said.insert key run } where
  numbered := h.numbered
  one := h.one
  alone := h.alone
  placed := h.placed
  listed := h.listed
  said run' hlookup := by
    rw [AList.lookup_insert_ne hne] at hlookup
    exact h.said run' hlookup

lemma Exact.begin (h : s.Exact sha name) {u : Upsert} (halone : u.key = (sha,name) → (sha,name) ∉ s.inFlight.map Upsert.key)
    (hnone : u.existing = none) : Exact sha name { s with inFlight := s.inFlight ++ [u] } := by
  have hnew : ∀ v ∈ s.inFlight ++ [u], ∀ l, v.existing = some l → v ∈ s.inFlight := by
    intro v hv l hl
    obtain hv | hv := List.mem_append.mp hv
    · exact hv
    · rw [List.mem_singleton.mp hv,hnone] at hl
      cases hl
  refine ⟨h.numbered,h.one,?_,fun v hv l hl => h.placed v (hnew v hv l hl) l hl,
    fun v hv hkey l hl => h.listed v (hnew v hv l hl) hkey l hl,h.said⟩
  change (s.inFlight ++ [u]).countP _ ≤ 1
  rw [List.countP_append,List.countP_singleton]
  split
  · next hkey =>
    have hzero : s.inFlight.countP (fun u => u.key = (sha,name)) = 0 := by
      refine List.countP_eq_zero.mpr fun v hv hvkey => halone (of_decide_eq_true hkey) ?_
      exact List.mem_map.mpr ⟨v,hv,of_decide_eq_true hvkey⟩
    omega
  · exact h.alone

lemma Exact.list (h : s.Exact sha name) {i : ℕ} {u : Upsert} (hu : s.inFlight[i]? = some u) {l : List HostedCheck}
    (hl : l = s.host.repository.named u.pr.headSHA u.run.name) :
    Exact sha name { s with inFlight := s.inFlight.set i { u with existing := some l } } := by
  have hset : ∀ v ∈ s.inFlight.set i { u with existing := some l }, v = { u with existing := some l } ∨ v ∈ s.inFlight :=
    fun v hv => (List.mem_or_eq_of_mem_set hv).symm
  obtain ⟨front,back,hsplit,hmid⟩ := Steps.split_at hu
  refine ⟨h.numbered,h.one,?_,fun v hv l' hl' c hc => ?_,fun v hv hkey l' hl' => ?_,h.said⟩
  · have halone := h.alone
    rw [hsplit,List.countP_append,List.countP_cons] at halone
    change (s.inFlight.set i _).countP _ ≤ 1
    rw [hmid,List.countP_append,List.countP_cons]
    exact halone
  · obtain rfl | hv := hset v hv
    · obtain rfl := Option.some.inj hl'
      obtain ⟨hmem,hsha,hname⟩ := Checks.mem_named.mp (hl ▸ hc)
      exact List.mem_map.mpr ⟨c,hmem,congrArg (Prod.mk c.id) (Prod.ext hsha hname)⟩
    · exact h.placed v hv l' hl' c hc
  · obtain rfl | hv := hset v hv
    · obtain rfl := Option.some.inj hl'
      obtain ⟨rfl,rfl⟩ := Prod.mk.inj hkey
      exact hl
    · exact h.listed v hv hkey l' hl'

/-- A report of the name is written, and no other is under way. -/
lemma Exact.write (h : s.Exact sha name) (hgone : ∀ u ∈ s.inFlight, u.key ≠ (sha,name)) {run : CheckRun}
    (hgrown : Checks.Grown sha name s.host.repository host.repository)
    (hshown : ∃ c, host.repository.named sha name = [c] ∧ c.Shows run) :
    Exact sha name ⟨host,s.inFlight,s.said.insert (sha,name) run⟩ ∧
      Exact sha name ⟨host,s.inFlight,s.said.erase (sha,name)⟩ := by
  have hone : (host.repository.named sha name).length ≤ 1 := by
    obtain ⟨c,hc,-⟩ := hshown
    exact hc ▸ le_rfl
  have hplaced : ∀ u ∈ s.inFlight, ∀ l, u.existing = some l →
      ∀ c ∈ l, (c.id,u.key) ∈ host.repository.runs.map Checks.place :=
    fun u hu l hl c hc => hgrown.places (h.placed u hu l hl c hc)
  refine ⟨⟨hgrown.numbered,hone,h.alone,hplaced,fun u hu hkey => absurd hkey (hgone u hu),fun run' hlookup => ?_⟩,
    hgrown.numbered,hone,h.alone,hplaced,fun u hu hkey => absurd hkey (hgone u hu),fun run' hlookup => ?_⟩
  · rw [AList.lookup_insert] at hlookup
    obtain rfl := Option.some.inj hlookup
    exact hshown
  · rw [AList.lookup_erase] at hlookup
    cases hlookup

/-- Of the reports under way only one is of the name. -/
lemma Exact.gone (h : s.Exact sha name) {i : ℕ} {u : Upsert} (hu : s.inFlight[i]? = some u) (hkey : u.key = (sha,name)) :
    ∀ v ∈ s.inFlight.eraseIdx i, v.key ≠ (sha,name) := by
  obtain ⟨hi,rfl⟩ := List.getElem?_eq_some_iff.mp hu
  have halone := h.alone
  rw [← List.Perm.countP_eq _ (List.getElem_cons_eraseIdx_perm hi),List.countP_cons,
    if_pos (decide_eq_true hkey)] at halone
  have hzero : (s.inFlight.eraseIdx i).countP (fun u => u.key = (sha,name)) = 0 := by omega
  exact fun v hv hvkey => List.countP_eq_zero.mp hzero v hv (decide_eq_true hvkey)

/-- What a call that writes does, whether or not an error comes back. -/
lemma write_spec {owner repo : Bytes} {pr : PullRequest} {run : CheckRun} {h h' : HostOf Checks}
    {existing : List HostedCheck} {res : Except Err Unit} (hn : h.repository.Numbered)
    (hplaced : ∀ c ∈ existing, (c.id,pr.headSHA,run.name) ∈ h.repository.runs.map Checks.place)
    (hw : GitHub.writeCheckRun owner repo pr run existing h = (res,h')) :
    (Checks.Grown pr.headSHA run.name h.repository h'.repository ∧
      (existing = h.repository.named pr.headSHA run.name → existing.length ≤ 1 →
        ∃ c, h'.repository.named pr.headSHA run.name = [c] ∧ c.Shows run)) ∨
      h'.repository = h.repository ∧ ∃ err, res = .error err := by
  rw [GitHub.writeCheckRun] at hw
  obtain ⟨-,-,hr⟩ := HostOf.call_cases hw
  have hgrown := (Checks.write_grown hn (Prod.eta _).symm hplaced).2
  obtain ⟨herr,hr | hr⟩ | ⟨-,-,-,hr⟩ := hr
  · exact .inr ⟨hr,herr⟩
  all_goals
    rw [hr]
    refine .inl ⟨hgrown,?_⟩
    rintro rfl hone
    exact (Checks.write_reported hn hone (Prod.eta _).symm).2.shown

/-- A call that writes: the report is dropped, and what was said is known. -/
lemma Exact.wrote (h : s.Exact sha name) {i : ℕ} {owner repo : Bytes} {pr : PullRequest} {run : CheckRun}
    {existing : List HostedCheck} {fault : Option Fault} {res : Except Err Unit}
    (hu : s.inFlight[i]? = some ⟨owner,repo,pr,run,some existing⟩)
    (hw : GitHub.writeCheckRun owner repo pr run existing (s.host.facing [fault] none) = (res,host)) :
    Exact sha name ⟨host,s.inFlight.eraseIdx i,s.said.erase (pr.headSHA,run.name)⟩ ∧
      (res = .ok () → Exact sha name ⟨host,s.inFlight.eraseIdx i,s.said.insert (pr.headSHA,run.name) run⟩) := by
  have hmem := List.mem_of_getElem? hu
  obtain ⟨hgrown,hshown⟩ | ⟨hsame,err,rfl⟩ :=
    write_spec (h := s.host.facing [fault] none) h.numbered (h.placed _ hmem existing rfl) hw
  · by_cases hkey : (pr.headSHA,run.name) = (sha,name)
    · obtain ⟨rfl,rfl⟩ := Prod.mk.inj hkey
      have hlisted := h.listed _ hmem rfl existing rfl
      have hboth := (h.drop i).write (h.gone hu rfl) hgrown (hshown hlisted (hlisted ▸ h.one))
      exact ⟨hboth.2,fun _ => hboth.1⟩
    · have hdropped := (h.drop i).elsewhere hgrown (Ne.symm hkey)
      exact ⟨hdropped.forget _,fun _ => hdropped.note (Ne.symm hkey) run⟩
  · exact ⟨((h.drop i).same hsame).forget _,fun hok => by cases hok⟩

lemma Exact.step (h : s.Exact sha name) (hname : isCadoo name = true) {ev : CheckEvent} (halone : s.Alone sha name ev)
    (hstep : step s ev = some t) : t.Exact sha name := by
  cases ev with
  | begin pr run =>
    rw [Reporting.step] at hstep
    split at hstep
    · exact Option.some.inj hstep ▸ h
    · exact Option.some.inj hstep ▸ h.begin halone rfl
  | list i fault =>
    rw [Reporting.step] at hstep
    split at hstep
    · next owner repo pr run hu =>
      split at hstep
      · next err host hlist =>
        exact Option.some.inj hstep ▸ (h.same (HostOf.query_cases hlist).1.repository).drop i
      · next existing host hlist =>
        obtain ⟨⟨-,-,hsame⟩,hok⟩ := HostOf.query_cases hlist
        obtain ⟨-,-,hl⟩ := hok existing rfl
        have hl : existing = host.repository.named pr.headSHA run.name := by
          rw [Checks.list] at hl
          split at hl
          · cases hl
          · rw [hsame]
            exact (Except.ok.inj hl).symm
        exact Option.some.inj hstep ▸ (h.same hsame).list hu hl
    · cases hstep
  | write i fault =>
    rw [Reporting.step] at hstep
    split at hstep
    · next owner repo pr run existing hu =>
      split at hstep
      · next err host hw => exact Option.some.inj hstep ▸ (h.wrote hu hw).1
      · next u host hw => exact Option.some.inj hstep ▸ (h.wrote hu hw).2 rfl
    · cases hstep
  | create sha' o =>
    rw [Reporting.step] at hstep
    split at hstep
    · cases hstep
    · next hother =>
      refine Option.some.inj hstep ▸ h.elsewhere (Checks.create_grown h.numbered o) fun heq => hother ?_
      rw [← (Prod.mk.inj heq).2]
      exact hname
  | update id o =>
    rw [Reporting.step] at hstep
    split at hstep
    · next hguard =>
      obtain ⟨hother,hany⟩ := hguard
      obtain ⟨c,hc,hkey⟩ := List.any_eq_true.mp hany
      rw [Bool.and_eq_true,decide_eq_true_eq,decide_eq_true_eq] at hkey
      obtain ⟨rfl,ho⟩ := hkey
      refine Option.some.inj hstep ▸ h.elsewhere (Checks.update_grown h.numbered hc ho.symm) fun heq => ?_
      rw [← ho,← (Prod.mk.inj heq).2,hname] at hother
      cases hother
    · cases hstep

/-- However the calls of reports take turns and whatever befalls them: of a name that is reported on a commit by one at a
time there is at most one check run, and it shows what was last reported. -/
theorem run_reports (hname : isCadoo name = true) (hn : host.repository.Numbered)
    (hone : (host.repository.named sha name).length ≤ 1) {es : List CheckEvent}
    (h : Steps.run step { host := host } es = some s) (halone : Steps.Along step (Alone sha name) { host := host } es) :
    (s.host.repository.named sha name).length ≤ 1 ∧
      ∀ run, s.said.lookup (sha,name) = some run →
        ∃ c, s.host.repository.named sha name = [c] ∧ c.Shows run := by
  have hstart : Exact sha name { host := host } :=
    ⟨hn,hone,Nat.zero_le _,fun u hu => absurd hu List.not_mem_nil,fun u hu => absurd hu List.not_mem_nil,
      fun run hsaid => by cases hsaid⟩
  have hs := Steps.run_along (I := Exact sha name) h halone hstart fun _ _ _ hc hstep hi => hi.step hname hc hstep
  exact ⟨hs.one,hs.said⟩

section Example

def exampleChecksHost : HostOf Checks := ⟨lit "acme",lit "shop",⟨[],1⟩,[],none⟩

def exampleHead : PullRequest := { repoFullName := lit "acme/shop", number := 7, headSHA := lit "c0" }

def exampleReview : CheckRun := ⟨lit "cadoo/review",.succeeded,lit "no findings",[],[]⟩

/-- Two reports take turns, and the answer to the first one's writing is lost; it is made again. -/
def exampleCheckEvents : List CheckEvent :=
  [.begin exampleHead exampleReview,.begin exampleHead ⟨lit "cadoo/check/sql",.failed,lit "1 finding(s)",[],[]⟩,
    .list 0 none,.list 1 none,.write 1 none,.write 0 (some (.lost (lit "timeout"))),
    .begin exampleHead exampleReview,.list 0 none,.write 0 none]

theorem example_reports : ∃ s, Steps.run step { host := exampleChecksHost } exampleCheckEvents = some s ∧
    (s.said.lookup (lit "c0",lit "cadoo/review") = some exampleReview) ∧
    (s.host.repository.named (lit "c0") (lit "cadoo/review")).length ≤ 1 ∧
      ∀ run, s.said.lookup (lit "c0",lit "cadoo/review") = some run →
        ∃ c, s.host.repository.named (lit "c0") (lit "cadoo/review") = [c] ∧ c.Shows run :=
  have hrun : ∃ s, Steps.run step { host := exampleChecksHost } exampleCheckEvents = some s ∧
      s.said.lookup (lit "c0",lit "cadoo/review") = some exampleReview := ⟨_,rfl,by decide⟩
  have hn : exampleChecksHost.repository.Numbered := ⟨.nil,fun c hc => absurd hc List.not_mem_nil⟩
  let ⟨s,hs,hsaid⟩ := hrun
  ⟨s,hs,hsaid,run_reports (by decide) hn (Nat.zero_le _) hs (by decide)⟩

/-- Two reports of one name that overlap both find nothing, and both make a check run. -/
example : ∃ s, Steps.run step { host := exampleChecksHost } [.begin exampleHead exampleReview,
      .begin exampleHead exampleReview,.list 0 none,.list 1 none,.write 0 none,.write 0 none] = some s ∧
    (s.host.repository.named (lit "c0") (lit "cadoo/review")).length = 2 :=
  ⟨_,rfl,by decide⟩

end Example

end Reporting
end Vcs

namespace GitHub
open Bytes Vcs Checks
variable {pr : PullRequest} {run : CheckRun} {h : HostOf Checks}

/-- A report that nothing befalls. -/
lemma UpsertCheckRun_reported (hsplit : splitRepo pr.repoFullName = some (h.owner,h.name)) (hsha : pr.headSHA ≠ [])
    (hn : h.repository.Numbered) (hone : (h.repository.named pr.headSHA run.name).length ≤ 1) (hf : h.faults = []) :
    ∃ r, Reported pr.headSHA run h.repository r ∧
      UpsertCheckRun pr run h = (none,{ h with repository := r }) := by
  have hcall : ∀ {α : Type} (f : Checks → Except Err α × Checks),
      h.call h.owner h.name f = ((f h.repository).1,{ h with repository := (f h.repository).2 }) := by
    intro α f
    rw [HostOf.call,if_pos ⟨rfl,rfl⟩,hf]
    rfl
  have hlist : listCheckRuns h.owner h.name pr run h = (.ok (h.repository.named pr.headSHA run.name),h) := by
    rw [listCheckRuns,HostOf.query,hcall,Checks.list,if_neg hsha]
  obtain ⟨hok,hreported⟩ := write_reported hn hone (Prod.eta _).symm
  refine ⟨_,hreported,?_⟩
  rw [UpsertCheckRun,hsplit]
  dsimp only
  rw [hlist]
  dsimp only
  rw [writeCheckRun,hcall,hok]

end GitHub
