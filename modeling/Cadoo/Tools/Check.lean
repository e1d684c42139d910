import Cadoo.Lib.Workers
import Cadoo.Orchestrator.Dispatcher
import Cadoo.Vcs.CheckRuns

/-! The check tool: the rules of a repository are put to the model all at once, and what comes of them is reported in
the order of the rules, with a check run for each. -/
namespace Tools.Check
open Bytes Utf8 Vcs Orchestrator

/-- A rule of the repository's settings; its paths and its prompt are for the model only. -/
structure Rule where
  name : Bytes
  severity : Bytes
  deriving DecidableEq

/-- One issue as the model gives it. -/
structure Finding where
  file : Bytes
  lineStart : ℤ
  lineEnd : ℤ
  title : Bytes
  body : Bytes
  deriving DecidableEq

/-- What a rule leaves in its slot. -/
structure Outcome where
  name : Bytes
  inlines : List InlineComment
  checkRun : CheckRun
  deriving DecidableEq

/-- The model's answer for a rule, or what kept it from one. -/
abbrev Answer := Except Err (List Finding)

variable (U : Tables)

def severity (c : Rule) : Severity := if toLower U c.severity = [] then SeverityWarn else toLower U c.severity

def inline (c : Rule) (f : Finding) : InlineComment where
  file := f.file
  lineStart := f.lineStart
  lineEnd := f.lineEnd
  body := lit "**" ++ (if f.title = [] then c.name else f.title) ++ lit "** _(" ++ c.name ++ lit ")_\n\n" ++ f.body
  severity := severity U c

def CheckRunName (c : Rule) : Bytes := lit "cadoo/check/" ++ c.name

def checkRun (c : Rule) (fs : List Finding) : CheckRun where
  name := CheckRunName c
  status := if fs ≠ [] ∧ severity U c = SeverityBlock then .failed else .succeeded
  title := if fs ≠ [] then natDecimal fs.length ++ lit " finding(s)" else lit "no findings"
  summary := lit "Custom check: " ++ c.name

def outcome (c : Rule) (fs : List Finding) : Outcome := ⟨c.name,fs.map (inline U c),checkRun U c fs⟩

/-- The body of a rule's goroutine; when the model fails, the slot is left alone. -/
def evaluate (checks : List Rule) (i : ℕ) (answer : Answer) : Option Outcome :=
  match checks[i]?,answer with
  | some c,.ok fs => some (outcome U c fs)
  | _,_ => none

/-- The slots in their order. One without a name counts as empty. -/
def merge (results : List (Option Outcome)) : Result :=
  let ran := results.filterMap fun r => r.filter fun o => o.name ≠ []
  let inlines := ran.flatMap Outcome.inlines
  { summary := lit "## Cadoo `/check`\n\n" ++
      if ran = [] then lit "_No checks ran (LLM errors only)._"
      else lit "Ran " ++ natDecimal ran.length ++ lit " check(s): " ++ (lit ", ").intercalate (ran.map Outcome.name) ++
        lit ".\nPosted " ++ natDecimal inlines.length ++ lit " finding(s).\n"
    inlineComments := inlines
    checkRuns := ran.map Outcome.checkRun }

def noChecks : Result :=
  { summary := lit "## Cadoo `/check`\n\nNo custom checks configured in `.cadoo.yaml`." }

def slotsStep (checks : List Rule) := Workers.step (Workers.putSlot (evaluate U checks))

/-- The tool, given the rules' answers in the order they come in; it waits for all. -/
def Run (checks : List Rule) (es : List (ℕ × Answer)) : Option Result :=
  if checks = [] then some noChecks
  else
    match Steps.run (slotsStep U checks) (Workers.start checks.length (List.replicate checks.length none)) es with
    | some p => if p.running = [] then some (merge p.shared) else none
    | none => none

/-- The rules that count as run, in their order, each with its findings. -/
def ran (checks : List Rule) (answers : List Answer) : List (Rule × List Finding) :=
  (checks.zip answers).filterMap fun p =>
    match p.2 with
    | .ok fs => if p.1.name = [] then none else some (p.1,fs)
    | .error _ => none

/-- The result says of each rule that has run, in order, what it has found, and of no other. -/
structure Reports (pairs : List (Rule × List Finding)) (res : Result) : Prop where
  inlines : res.inlineComments = pairs.flatMap fun p => p.2.map (inline U p.1)
  checkRuns : res.checkRuns = pairs.map fun p => checkRun U p.1 p.2
  nothingElse : res.checkRun = none ∧ res.editPRBody = none

variable {U}

/-- What a rule leaves when its answer is in. -/
def left (U : Tables) (p : Rule × Answer) : Option Outcome :=
  match p.2 with
  | .ok fs => some (outcome U p.1 fs)
  | .error _ => none

lemma slots_eq_zip {checks : List Rule} {answers : List Answer} (h : answers.length = checks.length) :
    answers.mapIdx (evaluate U checks) = (checks.zip answers).map (left U) := by
  refine List.ext_getElem? fun i => ?_
  rw [List.getElem?_mapIdx,List.getElem?_map]
  by_cases hi : i < checks.length
  · have hi' : i < answers.length := h ▸ hi
    have hc := List.getElem?_eq_getElem hi
    have ha := List.getElem?_eq_getElem hi'
    rw [List.getElem?_zip_eq_some (z := (checks[i],answers[i])).mpr ⟨hc,ha⟩,ha]
    simp only [Option.map_some,evaluate,hc,left]
    cases answers[i] <;> rfl
  · have hi' : ¬ i < answers.length := h ▸ hi
    have hz : ¬ i < (checks.zip answers).length := by
      rw [List.length_zip]
      omega
    rw [List.getElem?_eq_none (not_lt.mp hi'),List.getElem?_eq_none (not_lt.mp hz)]
    rfl

lemma ran_eq (checks : List Rule) (answers : List Answer) :
    ((checks.zip answers).map (left U)).filterMap (fun r => r.filter fun o => o.name ≠ []) =
      (ran checks answers).map fun p => outcome U p.1 p.2 := by
  rw [ran,List.filterMap_map,List.map_filterMap]
  refine List.filterMap_congr fun p _ => ?_
  obtain ⟨c,a⟩ := p
  cases a with
  | error err => rfl
  | ok fs =>
    by_cases hname : c.name = []
    · simp [left,outcome,hname]
    · simp [left,outcome,hname]

lemma merge_reports (checks : List Rule) {answers : List Answer} (h : answers.length = checks.length) :
    Reports U (ran checks answers) (merge (answers.mapIdx (evaluate U checks))) := by
  rw [slots_eq_zip h,merge,ran_eq]
  exact ⟨List.flatMap_map ..,List.map_map ..,rfl,rfl⟩

/-- In whatever order the answers come in, the result is that of the rules one after the other. -/
lemma Run_inOrder {checks : List Rule} {es : List (ℕ × Answer)} {res : Result} (h : Run U checks es = some res) :
    ∃ answers : List Answer, (checks ≠ [] → answers.length = checks.length ∧ es.Perm (Workers.numbered answers)) ∧
      Reports U (ran checks answers) res := by
  rw [Run] at h
  split at h
  · next hnil =>
    obtain rfl := Option.some.inj h
    exact ⟨[],fun hne => absurd hnil hne,by rw [hnil]; exact ⟨rfl,rfl,rfl,rfl⟩⟩
  · split at h
    · next p hrun =>
      split at h
      · next hdone =>
        obtain rfl := Option.some.inj h
        obtain ⟨answers,hlen,hperm,hshared⟩ := Workers.slots_eq hrun hdone
        exact ⟨answers,fun _ => ⟨hlen,hperm⟩,hshared ▸ merge_reports checks hlen⟩
      · cases h
    · cases h

section Gates
variable {p : Provider (HostOf Checks)} {pr : PullRequest}

/-- A host that serves every call on the repository of a pull request, and has one check run at most of each of Cadoo's
names. -/
structure Serving (pr : PullRequest) (h : HostOf Checks) : Prop where
  repo : GitHub.splitRepo pr.repoFullName = some (h.owner,h.name)
  head : pr.headSHA ≠ []
  numbered : h.repository.Numbered
  one : ∀ name, isCadoo name = true → (h.repository.named pr.headSHA name).length ≤ 1
  faults : h.faults = []

lemma Serving.upsert {h : HostOf Checks} (hs : Serving pr h) {run : CheckRun} (hrun : isCadoo run.name = true) :
    Serving pr (GitHub.UpsertCheckRun pr run h).2 ∧
      Checks.Reported pr.headSHA run h.repository (GitHub.UpsertCheckRun pr run h).2.repository := by
  obtain ⟨r,hr,hupsert⟩ := GitHub.UpsertCheckRun_reported hs.repo hs.head hs.numbered (hs.one _ hrun) hs.faults
  rw [hupsert]
  refine ⟨⟨hs.repo,hs.head,hr.numbered,fun name hname => ?_,hs.faults⟩,hr⟩
  by_cases hkey : name = run.name
  · obtain ⟨c,hc,-⟩ := hr.shown
    rw [hkey,hc]
    exact le_rfl
  · rw [hr.others _ _ fun heq => hkey (Prod.mk.inj heq).2]
    exact hs.one name hname

/-- Of each name the last report is the one shown. -/
lemma reports_shown (hp : p.upsertCheckRun = GitHub.UpsertCheckRun) {runs : List CheckRun}
    (hruns : ∀ run ∈ runs, isCadoo run.name = true) {w : World (HostOf Checks)} (hs : Serving pr w.host) :
    (∀ front run back, runs = front ++ run :: back → (∀ q ∈ back, q.name ≠ run.name) →
      ∃ c, (runs.foldl (fun w run => w.upsertCheckRun p pr run) w).host.repository.named pr.headSHA run.name = [c] ∧
        c.Shows run) ∧
    ∀ sha name, (∀ run ∈ runs, (sha,name) ≠ (pr.headSHA,run.name)) →
      (runs.foldl (fun w run => w.upsertCheckRun p pr run) w).host.repository.named sha name =
        w.host.repository.named sha name := by
  induction runs generalizing w with
  | nil => exact ⟨fun front run back hnil => absurd hnil (by simp),fun sha name _ => rfl⟩
  | cons run rest ih =>
    have hhost : (w.upsertCheckRun p pr run).host = (GitHub.UpsertCheckRun pr run w.host).2 := by
      rw [← hp]
      rfl
    obtain ⟨hserving,hreported⟩ := hs.upsert (hruns run List.mem_cons_self)
    rw [← hhost] at hserving hreported
    obtain ⟨hshown,hothers⟩ := ih (fun q hq => hruns q (List.mem_cons_of_mem _ hq)) hserving
    refine ⟨fun front run' back hsplit hlast => ?_,fun sha name hne => ?_⟩
    · cases front with
      | nil =>
        obtain ⟨rfl,rfl⟩ := List.cons.inj hsplit
        rw [List.foldl_cons,hothers _ _ fun q hq heq => hlast q hq (Prod.mk.inj heq).2.symm]
        exact hreported.shown
      | cons f front => exact hshown front run' back (List.cons.inj hsplit).2 hlast
    · rw [List.foldl_cons,hothers sha name fun q hq => hne q (List.mem_cons_of_mem _ hq)]
      exact hreported.others sha name (hne run List.mem_cons_self)

lemma CheckRunName_inj {c d : Rule} : CheckRunName c = CheckRunName d ↔ c.name = d.name := by
  simp [CheckRunName]

lemma isCadoo_CheckRunName (c : Rule) : isCadoo (CheckRunName c) = true := by
  have hcadoo : hasPrefix (CheckRunName c) (lit "cadoo/") = true :=
    List.isPrefixOf_iff_prefix.mpr ⟨lit "check/" ++ c.name,rfl⟩
  rw [isCadoo,hcadoo,Bool.or_true]

/-- A rule blocks when its settings say so, in whatever case. -/
lemma severity_eq_block (U : Tables) (c : Rule) : severity U c = SeverityBlock ↔ toLower U c.severity = lit "block" := by
  have hwarn : SeverityWarn ≠ SeverityBlock := by decide
  rw [severity]
  split
  · next hnone =>
    rw [hnone]
    exact iff_of_false hwarn (by decide)
  · rfl

/-- In whatever order the answers come in, the result is that of the rules that have run, one after the other. When it
is reported, the check run of a rule fails exactly when the last rule of its name that has run blocks and has found
something; all other check runs stay as they were. -/
theorem Run_gates {checks : List Rule} {es : List (ℕ × Answer)} {res : Result} (h : Run U checks es = some res)
    (hp : p.upsertCheckRun = GitHub.UpsertCheckRun) {w : World (HostOf Checks)} (hs : Serving pr w.host) :
    ∃ answers : List Answer, (checks ≠ [] → answers.length = checks.length ∧ es.Perm (Workers.numbered answers)) ∧
      Reports U (ran checks answers) res ∧
      (∀ front c fs back, ran checks answers = front ++ (c,fs) :: back → (∀ q ∈ back, q.1.name ≠ c.name) →
        ∃ hosted, (reportChecks p pr res w).host.repository.named pr.headSHA (CheckRunName c) = [hosted] ∧
          hosted.conclusion = if fs ≠ [] ∧ toLower U c.severity = lit "block" then lit "failure" else lit "success") ∧
      ∀ sha name, (∀ q ∈ ran checks answers, (sha,name) ≠ (pr.headSHA,CheckRunName q.1)) →
        (reportChecks p pr res w).host.repository.named sha name = w.host.repository.named sha name := by
  obtain ⟨answers,hanswers,hreports⟩ := Run_inOrder h
  refine ⟨answers,hanswers,hreports,?_⟩
  have hfold : reportChecks p pr res w =
      ((ran checks answers).map fun q => checkRun U q.1 q.2).foldl (fun w run => w.upsertCheckRun p pr run) w := by
    rw [reportChecks,hreports.nothingElse.1,hreports.checkRuns]
  have hcadoo : ∀ run ∈ (ran checks answers).map fun q => checkRun U q.1 q.2, isCadoo run.name = true := by
    intro run hrun
    obtain ⟨q,-,rfl⟩ := List.mem_map.mp hrun
    exact isCadoo_CheckRunName q.1
  obtain ⟨hshown,hothers⟩ := reports_shown hp hcadoo hs
  rw [hfold]
  refine ⟨fun front c fs back hsplit hlast => ?_,fun sha name hne => hothers sha name fun run hrun => ?_⟩
  · obtain ⟨hosted,hnamed,hshows⟩ := hshown (front.map fun q => checkRun U q.1 q.2) (checkRun U c fs)
      (back.map fun q => checkRun U q.1 q.2) (by rw [hsplit,List.map_append,List.map_cons]) fun run hrun => by
        obtain ⟨q,hq,rfl⟩ := List.mem_map.mp hrun
        exact fun heq => hlast q hq (CheckRunName_inj.mp heq)
    refine ⟨hosted,hnamed,?_⟩
    have hconclusion := hshows.conclusion
    simp only [checkRun,severity_eq_block] at hconclusion
    split at hconclusion
    · next hblock => rw [if_pos hblock]; exact hconclusion (by decide)
    · next hpass => rw [if_neg hpass]; exact hconclusion (by decide)
  · obtain ⟨q,hq,rfl⟩ := List.mem_map.mp hrun
    exact hne q hq

section Example

def exampleProvider : Provider (HostOf Checks) where
  kind := KindGitHub
  fetchPullRequest _ _ _ := .ok Reporting.exampleHead
  listChangedFiles _ _ := .ok []
  postSummaryComment _ _ h := (.ok [],h)
  updateSummaryComment _ _ _ h := (none,h)
  postInlineComments _ comments h := ((comments.map fun c => ⟨c,[]⟩,none),h)
  resolveThread _ _ h := (none,h)
  editPullRequestBody _ _ h := (none,h)
  upsertCheckRun := GitHub.UpsertCheckRun
  diffBetween := none

def exampleRules : List Rule := [⟨lit "sql",lit "BLOCK"⟩,⟨lit "docs",[]⟩,⟨lit "tests",lit "warn"⟩]

/-- The answers come in from the last rule to the first, and one of them is an error. -/
def exampleAnswers : List (ℕ × Answer) :=
  [(2,.ok []),(1,.error (lit "timeout")),(0,.ok [⟨lit "a.go",3,3,[],lit "raw query"⟩])]

theorem exampleRules_gate : ∃ res, Run Tables.plain exampleRules exampleAnswers = some res ∧
    ∃ answers : List Answer,
      (exampleRules ≠ [] → answers.length = exampleRules.length ∧ exampleAnswers.Perm (Workers.numbered answers)) ∧
      Reports Tables.plain (ran exampleRules answers) res ∧
      (∀ front c fs back, ran exampleRules answers = front ++ (c,fs) :: back → (∀ q ∈ back, q.1.name ≠ c.name) →
        ∃ hosted, (reportChecks exampleProvider Reporting.exampleHead res
            ⟨Reporting.exampleChecksHost,none,[]⟩).host.repository.named (lit "c0") (CheckRunName c) = [hosted] ∧
          hosted.conclusion =
            if fs ≠ [] ∧ toLower Tables.plain c.severity = lit "block" then lit "failure" else lit "success") ∧
      ∀ sha name, (∀ q ∈ ran exampleRules answers, (sha,name) ≠ (lit "c0",CheckRunName q.1)) →
        (reportChecks exampleProvider Reporting.exampleHead res
          ⟨Reporting.exampleChecksHost,none,[]⟩).host.repository.named sha name = [] :=
  have hserving : Serving Reporting.exampleHead Reporting.exampleChecksHost :=
    ⟨by decide,by decide,⟨.nil,fun c hc => absurd hc List.not_mem_nil⟩,fun _ _ => Nat.zero_le _,rfl⟩
  have hrun : ∃ res, Run Tables.plain exampleRules exampleAnswers = some res := ⟨_,rfl⟩
  let ⟨res,hres⟩ := hrun
  ⟨res,hres,Run_gates hres rfl hserving⟩

end Example

end Gates

end Tools.Check
