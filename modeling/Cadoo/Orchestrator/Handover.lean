import Mathlib.Data.Option.Basic
import Cadoo.Orchestrator.Dispatcher
import Cadoo.Vcs.Configured

/-! What one dispatch hands to the next through the store. A run records under the name its adapter goes
by and reads under the name of its job, and the two need not be the same. -/
namespace Findings
open Bytes Vcs

namespace Store

/-- What a store holds of findings. -/
def held (s : Store) : Option (GoMap PRKey (List FindingRec)) × Option (List FindingRow) :=
  (s.mem.map MemoryStore.findings,s.pool.map Database.findings)

/-- The findings recorded on a pull request, each with its fingerprint. -/
def records (s : Store) (k : PRKey) : List (Bytes × PostedFinding) :=
  match s.mem,s.pool with
  | some m,_ => (m.findings.get k).map fun r => (r.fingerprint,r.posted)
  | none,some db => (db.findings.filter fun r => r.ofPR k).map fun r => (r.fingerprint,r.posted)
  | none,none => []

/-- Whether the findings of a pull request can be asked for. -/
def readable (s : Store) (k : PRKey) : Bool :=
  match s.mem,s.pool with
  | none,some _ => keyOk k
  | _,_ => true

variable {s s' : Store} {k : PRKey}

lemma records_of_held (h : s'.held = s.held) : s'.records k = s.records k := by
  obtain ⟨pool,mem⟩ := s
  obtain ⟨pool',mem'⟩ := s'
  obtain ⟨hm,hp⟩ := Prod.mk.inj h
  cases mem <;> cases mem' <;> cases pool <;> cases pool' <;>
    simp_all [records]

lemma readable_of_held (h : s'.held = s.held) : s'.readable k = s.readable k := by
  obtain ⟨pool,mem⟩ := s
  obtain ⟨pool',mem'⟩ := s'
  obtain ⟨hm,hp⟩ := Prod.mk.inj h
  cases mem <;> cases mem' <;> cases pool <;> cases pool' <;>
    simp_all [readable]

lemma mem_listPostedFindings {q : PostedFinding} :
    (∃ l, s.ListPostedFindings k = .ok l ∧ q ∈ l) ↔
      s.readable k = true ∧ ∃ fp, (fp,q) ∈ s.records k := by
  obtain ⟨pool,mem⟩ := s
  cases mem with
  | some m => simp [ListPostedFindings,MemoryStore.list,records,readable]
  | none =>
    cases pool with
    | none => simp [ListPostedFindings,records]
    | some db =>
      simp only [ListPostedFindings,Database.listPostedFindings,records,readable]
      by_cases hk : keyOk k = true
      · simp [hk]
      · simp [hk]

/-- What the writes on one pull request can do to the findings of a store. -/
structure Grows (s : Store) (key : PRKey) (s' : Store) : Prop where
  readable : ∀ k, s'.readable k = s.readable k
  other : ∀ k, k ≠ key → s'.records k = s.records k
  kept : ∀ e ∈ s.records key, ∃ e' ∈ s'.records key, e'.1 = e.1 ∧
    e'.2 = { e.2 with externalCommentID := e'.2.externalCommentID }
  fresh : ∀ e ∈ s'.records key, e.1 ∉ (s.records key).map Prod.fst → s.readable key = true

namespace Grows
variable {key : PRKey} {s'' : Store}

lemma of_held (h : s'.held = s.held) : Grows s key s' where
  readable _ := readable_of_held h
  other _ _ := records_of_held h
  kept e he := ⟨e,by rw [records_of_held h]; exact he,rfl,rfl⟩
  fresh e he hn := by
    rw [records_of_held h] at he
    exact absurd (List.mem_map_of_mem he) hn

lemma trans (h : Grows s key s') (h' : Grows s' key s'') : Grows s key s'' where
  readable k := (h'.readable k).trans (h.readable k)
  other k hk := (h'.other k hk).trans (h.other k hk)
  kept e he := by
    obtain ⟨e',he',hfp,hrest⟩ := h.kept e he
    obtain ⟨e'',he'',hfp',hrest'⟩ := h'.kept e' he'
    exact ⟨e'',he'',hfp'.trans hfp,by rw [hrest',hrest]⟩
  fresh e he hn := by
    by_cases hin : e.1 ∈ (s'.records key).map Prod.fst
    · obtain ⟨e',he',hfp⟩ := List.mem_map.mp hin
      exact h.fresh e' he' (hfp ▸ hn)
    · rw [← h.readable]
      exact h'.fresh e he hin

end Grows

lemma recordInto_views (rec : FindingRec) {rs : List FindingRec} {r : FindingRec} (h : r ∈ rs) :
    ∃ r' ∈ recordInto rec rs, r'.fingerprint = r.fingerprint ∧
      r'.posted = { r.posted with externalCommentID := r'.externalID } := by
  induction rs with
  | nil => simp at h
  | cons e rs ih =>
    have hkeep : ∀ tl : List FindingRec, r ∈ tl → ∃ r' ∈ tl, r'.fingerprint = r.fingerprint ∧
        r'.posted = { r.posted with externalCommentID := r'.externalID } :=
      fun tl hr => ⟨r,hr,rfl,rfl⟩
    rw [recordInto]
    split
    · split
      · rcases List.mem_cons.mp h with rfl | h
        · exact ⟨_,List.mem_cons_self,rfl,rfl⟩
        · exact hkeep _ (List.mem_cons_of_mem _ h)
      · exact hkeep _ h
    · rcases List.mem_cons.mp h with rfl | h
      · exact hkeep _ List.mem_cons_self
      · obtain ⟨r',hr',hrest⟩ := ih h
        exact ⟨r',List.mem_cons_of_mem _ hr',hrest⟩

/-- Recording a finding on a pull request. -/
lemma grows_RecordFinding (U : Utf8.Tables) (s : Store) (key : PRKey) (tool id : Bytes)
    (c : InlineComment) : s.Grows key (s.RecordFinding U key tool id c).1 := by
  obtain ⟨pool,mem⟩ := s
  cases mem with
  | some m =>
    refine ⟨fun k => rfl,fun k hk => ?_,?_,fun _ _ _ => rfl⟩
    · simp only [RecordFinding,records,MemoryStore.record,GoMap.get_insert_ne _ _ _ _ hk]
    · intro e he
      simp only [RecordFinding,records,MemoryStore.record,GoMap.get_insert] at he ⊢
      obtain ⟨r,hr,rfl⟩ := List.mem_map.mp he
      obtain ⟨r',hr',hfp,hrest⟩ := recordInto_views (newRec U tool id c) hr
      exact ⟨_,List.mem_map_of_mem hr',hfp,hrest⟩
  | none =>
    cases pool with
    | none => exact .of_held rfl
    | some db =>
      simp only [RecordFinding,Database.recordFinding]
      split
      · next hok =>
        split
        · exact .of_held rfl
        · have hkey : keyOk key = true := by
            simp only [Bool.and_eq_true] at hok
            exact hok.1.1.1.1.1.1.1.1
          refine ⟨fun k => rfl,fun k hk => ?_,fun e he => ⟨e,?_,rfl,rfl⟩,fun _ _ _ => hkey⟩
          · simp only [ofPool,records,List.filter_append,List.map_append]
            have hno : (newRow U key tool id c).ofPR k = false := by
              simp only [FindingRow.ofPR,newRow,Bool.and_eq_false_iff,beq_eq_false_iff_ne]
              by_contra h
              push Not at h
              exact hk (by cases k; cases key; simp_all)
            simp [hno]
          · simp only [ofPool,records,List.filter_append,List.map_append]
            exact List.mem_append_left _ he
      · exact .of_held rfl

end Store

end Findings

namespace Orchestrator
open Bytes Utf8 Vcs Findings

/-- What the prompt shows of a posted finding. -/
def priorView (q : PostedFinding) : PriorFinding :=
  ⟨q.tool,q.file,q.lineStart,q.lineEnd,q.severity,q.title⟩

/-- A finding that has a record after a run and had none before. -/
def RecordedBetween (before after : Option Store) (f : PriorFinding) : Prop :=
  ∃ s s', before = some s ∧ after = some s' ∧
    ∃ k, ∃ e ∈ s'.records k, e.1 ∉ (s.records k).map Prod.fst ∧ priorView e.2 = f

lemma mem_loadPriors {s : Store} {k : PRKey} {f : PriorFinding} : f ∈ loadPriors (some s) k ↔
    s.readable k = true ∧ ∃ e ∈ s.records k, priorView e.2 = f := by
  have hlist : f ∈ loadPriors (some s) k ↔
      ∃ q, (∃ l, s.ListPostedFindings k = .ok l ∧ q ∈ l) ∧ priorView q = f := by
    rw [loadPriors]
    cases hl : s.ListPostedFindings k with
    | error e => simp
    | ok l => simp [priorView]
  rw [hlist]
  constructor
  · rintro ⟨q,hq,rfl⟩
    obtain ⟨hr,fp,hmem⟩ := Store.mem_listPostedFindings.mp hq
    exact ⟨hr,_,hmem,rfl⟩
  · rintro ⟨hr,⟨fp,q⟩,hmem,rfl⟩
    exact ⟨q,Store.mem_listPostedFindings.mpr ⟨hr,fp,hmem⟩,rfl⟩

section Grows
variable (U : Tables) {W : Type} (p : Provider W) (pr : PullRequest) (key : PRKey) (tool : Bytes)

lemma grows_recordRefs (refs : List PostedInlineRef) (delta : List InlineComment) (s : Store) :
    s.Grows key (recordRefs U key tool refs delta s) := by
  rw [recordRefs]
  induction refs.zip delta generalizing s with
  | nil => exact .of_held rfl
  | cons rd rds ih => exact (Store.grows_RecordFinding U s key tool _ _).trans (ih _)

/-- The findings of the store after a run are those before it and more on the one pull request. -/
def Grown (before after : Option Store) : Prop :=
  Option.Rel (fun s s' => s.Grows key s') before after

variable {key} in
lemma Grown.trans {o o' o'' : Option Store} (h : Grown key o o') (h' : Grown key o' o'') :
    Grown key o o'' := by
  cases h with
  | none => exact h'
  | some h =>
    cases h' with
    | some h' => exact .some (h.trans h')

variable {key} in
lemma Grown.of_held {o o' : Option Store} (h : o'.map Store.held = o.map Store.held) :
    Grown key o o' := by
  cases o with
  | none =>
    rw [Option.map_eq_none_iff.mp h]
    exact .none
  | some s =>
    obtain ⟨s',rfl,hs⟩ := Option.map_eq_some_iff.mp h
    exact .some (.of_held hs)

variable (w : World W)

lemma held_congr (pool : Option Database) (m m' : MemoryStore) (h : m'.findings = m.findings) :
    Store.held ⟨pool,some m'⟩ = Store.held ⟨pool,some m⟩ := by
  rw [Store.held,Store.held,Option.map_some,Option.map_some,h]

lemma held_PutSection (s : Store) (tool body : Bytes) : (s.PutSection key tool body).1.held = s.held :=
  s.PutSection_frame key tool held_congr (fun _ _ => rfl) body

lemma held_PutSummaryID (s : Store) (tool id : Bytes) : (s.PutSummaryID key tool id).1.held = s.held :=
  s.PutSummaryID_frame key tool held_congr (fun _ _ => rfl) id

lemma grown_postSummary (body : Bytes) :
    Grown key w.posted (postSummary p pr key tool body w).posted :=
  .of_held (postSummary_frame p pr key (held_PutSection key) (held_PutSummaryID key) tool body w)

lemma grown_postInline (comments : List InlineComment) (changeSet : List Bytes)
    (incrementalRun : Bool) :
    Grown key w.posted (postInline U p pr key tool comments changeSet incrementalRun w).posted := by
  rw [postInline,resolveStalePriors_posted,postDelta]
  split
  · exact .of_held rfl
  · dsimp only
    split
    · exact .of_held rfl
    · rw [World.postInlineComments_posted]
      cases w.posted with
      | none => exact .none
      | some s => exact .some (grows_recordRefs U key tool _ _ s)

lemma posted_reportChecks (res : Result) : (reportChecks p pr res w).posted = w.posted := by
  have hfold : ∀ (runs : List CheckRun) (v : World W),
      (runs.foldl (fun w run => w.upsertCheckRun p pr run) v).posted = v.posted := by
    intro runs
    induction runs with
    | nil => exact fun v => rfl
    | cons run runs ih => exact fun v => ih (v.upsertCheckRun p pr run)
  rw [reportChecks,hfold]
  split <;> rfl

lemma posted_applyPRBody (sec : Bytes) : (applyPRBody p pr sec w).posted = w.posted := by
  rw [applyPRBody]
  split
  · rfl
  · dsimp only
    split <;> rfl

/-- Whatever a tool answers, its result is recorded under the name of the adapter. -/
lemma grown_applyResult (d : Dispatcher W) (res : Option Result) (changeSet : List Bytes)
    (incrementalRun : Bool) : Grown (providerKey p pr) w.posted
      (applyResult U d p pr tool res changeSet incrementalRun w).posted := by
  cases res with
  | none => exact .of_held rfl
  | some res =>
    have hsummary : Grown (providerKey p pr) w.posted (if res.summary ≠ [] then
        postSummary p pr (providerKey p pr) tool res.summary w else w).posted := by
      split
      · exact grown_postSummary p pr (providerKey p pr) tool w res.summary
      · exact .of_held rfl
    have hinline := hsummary.trans (grown_postInline U p pr (providerKey p pr) tool _
      res.inlineComments changeSet incrementalRun)
    rw [applyResult]
    have hchecks : ∀ v : World W,
        (if d.reportStatus then reportChecks p pr res v else v).posted = v.posted := by
      intro v
      split
      · exact posted_reportChecks p pr v res
      · rfl
    split
    · rw [posted_applyPRBody,hchecks]
      exact hinline
    · rw [hchecks]
      exact hinline

lemma posted_failCheck (d : Dispatcher W) (err : Err) :
    (failCheck d p pr err w).posted = w.posted := by
  rw [failCheck]
  split <;> rfl

variable {p} in
/-- A dispatch records, if at all, under the adapter's name. -/
theorem grown_Run {d : Dispatcher W} {job : ToolJob}
    (hp : d.vcsPool (withDefaults job).provider = some p)
    (hfetch : ∀ repo number w pr, p.fetchPullRequest repo number w = .ok pr →
      pr.repoFullName = repo ∧ pr.number = number) :
    Grown ⟨p.kind,job.repoFullName,job.prNumber⟩ w.posted (Run U d job w).2.posted := by
  rw [Run]
  simp only [hp,withDefaults_repoFullName,withDefaults_prNumber]
  split
  · exact .of_held rfl
  · split
    · exact .of_held rfl
    · next pr hpr =>
      obtain ⟨hrepo,hnumber⟩ := hfetch _ _ _ _ hpr
      have hkey : (⟨p.kind,job.repoFullName,job.prNumber⟩ : PRKey) = providerKey p pr := by
        rw [providerKey,hrepo,hnumber]
      rw [hkey]
      split
      · rw [posted_failCheck]
        exact .of_held rfl
      · rw [runTool]
        split
        · rw [posted_failCheck]
          exact .of_held rfl
        · exact grown_applyResult U p pr _ w d _ _ _

end Grows

section Handover
variable (U : Tables) {W : Type} {github : GitHub.Config → Except Err (Client W (Bytes × Bytes))}
  {gitlab : GitLab.Config → Except Err (Client W Bytes)} {S : Settings} {d : Dispatcher W}

end Handover

section Enterprise

def unclosedFile : InlineComment where
  file := lit "store.go"
  lineStart := 12
  lineEnd := 12
  body := lit "File is never closed"
  severity := SeverityWarn

/-- A client of a host with every pull request. -/
def openClient : Client Unit (Bytes × Bytes) where
  get _ number _ := .ok { examplePR with number := number }
  rest := quietProvider examplePR

def gitHubSettings (baseURL : Bytes) : Settings where
  gitHubBaseURL := baseURL
  gitHubAppID := 1
  gitHubAppPrivateKeyPEM := lit "key"
  gitHubDefaultInstallationID := 2

def poolOf (S : Settings) : Option (Kind → Option (Provider Unit)) :=
  match S.buildPool (fun _ => .ok openClient) (fun _ => .error (lit "no client")) with
  | .ok pool => pool
  | .error _ => none

/-- A service on a GitHub host whose only tool reports one finding. -/
def reviewService (baseURL : Bytes) : Dispatcher Unit where
  vcsPool := (poolOf (gitHubSettings baseURL)).getD fun _ => none
  registry name := if name = lit "review" then
      some fun _ => .ok (some { inlineComments := [unclosedFile] })
    else none

def emptyMemory : World Unit := .ofMemory () {}

/-- The second of two dispatches. -/
def secondDispatch (baseURL : Bytes)
    (h : ((reviewService baseURL).vcsPool KindGitHub).isSome = true) :
    Dispatched (reviewService baseURL) exampleJob
      (Run Tables.plain (reviewService baseURL) exampleJob emptyMemory).2 where
  provider := ((reviewService baseURL).vcsPool KindGitHub).get h
  pr := examplePR
  tool _ := .ok (some { inlineComments := [unclosedFile] })
  files := []
  adapter := by
    rw [Option.some_get]
    rfl
  registered := rfl
  fetched := rfl
  listed := rfl

/-- The one finding of a first dispatch. -/
lemma recorded_first {after : Option Store} {k : PRKey} {e : Bytes × PostedFinding}
    (h : after.map (fun s => s.records k) = some [e]) :
    RecordedBetween emptyMemory.posted after (priorView e.2) := by
  obtain ⟨s',hs',hrec⟩ := Option.map_eq_some_iff.mp h
  exact ⟨{ mem := some {} },s',rfl,hs',k,e,by simp [hrec],List.not_mem_nil,rfl⟩

def enterpriseURL : Bytes := lit "https://git.acme.dev"

def unclosedRec : FindingRec := newRec Tables.plain (lit "review") [] unclosedFile

end Enterprise

end Orchestrator
