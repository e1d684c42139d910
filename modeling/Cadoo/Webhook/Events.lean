import Cadoo.Jobs.Payload
import Cadoo.Lib.Glob
import Cadoo.Lib.Sha256

/-! The webhook endpoints: a delivery is let in by its signature or token, parsed by the host's client, and turned
into jobs. The parsers of the events are parameters. -/
namespace Webhook
open Bytes Utf8 Vcs Jobs

/-- A delivery: the header by its canonical keys, and the body unless it cannot be read. -/
structure Request where
  header : Bytes → Bytes
  body : Option Bytes

structure Response where
  status : ℕ
  text : Bytes := []
  deriving DecidableEq

inductive Job where
  | tool (j : ToolJob)
  | release (j : ReleaseDocs.ReleaseJob)
  deriving DecidableEq

def Job.Plain : Job → Prop
  | tool j => j.Plain
  | release j => ReleaseJob.Plain j

section Signatures

/-- The error, if any, of a delivery from GitHub. -/
def VerifySignature (secret signatureHeader body : Bytes) : Option Err :=
  if secret = [] then some (lit "webhook secret not configured")
  else if hasPrefix signatureHeader (lit "sha256=") = false then
    some (lit "invalid signature header (missing sha256= prefix)")
  else
    let expected := signatureHeader.drop (lit "sha256=").length
    let actual := Sha1.hex (Sha256.hmac secret body)
    if expected = actual then none else some (lit "signature mismatch")

/-- The error, if any, of a delivery from GitLab, which sends the secret itself. -/
def VerifyToken (secret headerToken : Bytes) : Option Err :=
  if secret = [] then some (lit "webhook secret not configured")
  else if secret = headerToken then none else some (lit "token mismatch")

lemma VerifySignature_eq_none {secret header body : Bytes} : VerifySignature secret header body = none ↔
    secret ≠ [] ∧ header = lit "sha256=" ++ Sha1.hex (Sha256.hmac secret body) := by
  rw [VerifySignature]
  split
  · next h => simp [h]
  · next h =>
    split
    · next hpre =>
      refine iff_of_false (by simp) fun hh => ?_
      rw [hh.2,hasPrefix,List.isPrefixOf_iff_prefix.mpr (List.prefix_append _ _)] at hpre
      exact absurd hpre (by decide)
    · next hpre =>
      obtain ⟨rest,rfl⟩ := List.isPrefixOf_iff_prefix.mp (Bool.not_eq_false _ ▸ hpre)
      rw [List.drop_left]
      simp [h,eq_comm]

lemma VerifyToken_eq_none {secret token : Bytes} :
    VerifyToken secret token = none ↔ secret ≠ [] ∧ token = secret := by
  rw [VerifyToken]
  split
  · next h => simp [h]
  · next h => simp [h,eq_comm]

end Signatures

section Slash

def isSeparator (b : UInt8) : Bool := b == 32 || b == 9 || b == 10

/-- The command of a comment and the text after it, both empty when it is none. -/
def parseSlash (body : Bytes) : Bytes × Bytes :=
  let body := trimSpace body
  if hasPrefix body (lit "/") = false then ([],[])
  else
    let rest := body.drop 1
    match rest.findIdx? isSeparator with
    | some i => (rest.take i,trimSpace (rest.drop i))
    | none => (rest,[])

variable {body cmd args : Bytes}

lemma lit_slash : lit "/" = [47] := rfl

lemma slash_cases (s : Bytes) : hasPrefix s (lit "/") = false ∨ ∃ rest, s = 47 :: rest := by
  cases s with
  | nil => exact .inl rfl
  | cons b rest =>
    by_cases hb : b = 47
    · exact .inr ⟨rest,by rw [hb]⟩
    · left
      rw [hasPrefix,lit_slash,List.isPrefixOf_cons_cons,beq_false_of_ne (Ne.symm hb),Bool.false_and]

lemma parseSlash_none (h : hasPrefix (trimSpace body) (lit "/") = false) : parseSlash body = ([],[]) := if_pos h

lemma parseSlash_rest {rest : Bytes} (h : trimSpace body = 47 :: rest) : parseSlash body =
    (rest.takeWhile fun b => !isSeparator b,trimSpace (rest.dropWhile fun b => !isSeparator b)) := by
  have hslash : ¬ hasPrefix (47 :: rest) (lit "/") = false := by simp [hasPrefix,lit_slash]
  rw [parseSlash,h]
  simp only [if_neg hslash,List.drop_succ_cons,List.drop_zero]
  rw [List.takeWhile_eq_take_findIdx_not,List.dropWhile_eq_drop_findIdx_not]
  simp only [Bool.not_not]
  cases hfind : rest.findIdx? isSeparator with
  | none =>
    rw [List.findIdx?_eq_none_iff_findIdx_eq] at hfind
    have heta : (fun b => isSeparator b) = isSeparator := rfl
    rw [heta,hfind,List.take_length,List.drop_length]
    rfl
  | some i =>
    obtain ⟨-,rfl⟩ := List.findIdx?_eq_some_iff_findIdx_eq.mp hfind
    rfl

/-- A comment is a command exactly when its text, trimmed, is a slash and a word; what is behind the word up to the
end are the arguments, trimmed. -/
theorem parseSlash_iff (hcmd : cmd ≠ []) : parseSlash body = (cmd,args) ↔
    ∃ tail, trimSpace body = 47 :: (cmd ++ tail) ∧ (∀ b ∈ cmd, isSeparator b = false) ∧
      (∀ b ∈ tail.head?, isSeparator b = true) ∧ args = trimSpace tail := by
  constructor
  · intro h
    obtain hslash | ⟨rest,hrest⟩ := slash_cases (trimSpace body)
    · rw [parseSlash_none hslash] at h
      exact absurd (Prod.mk.inj h).1.symm hcmd
    · rw [parseSlash_rest hrest] at h
      obtain ⟨rfl,rfl⟩ := Prod.mk.inj h
      refine ⟨rest.dropWhile fun b => !isSeparator b,?_,?_,?_,rfl⟩
      · rw [List.takeWhile_append_dropWhile]
        exact hrest
      · intro b hb
        simpa using List.mem_takeWhile_imp hb
      · intro b hb
        have := List.head?_dropWhile_not (fun b => !isSeparator b) rest
        rw [Option.mem_def.mp hb] at this
        simpa using this
  · rintro ⟨tail,htrim,hword,htail,rfl⟩
    rw [parseSlash_rest htrim]
    have hall : ∀ b ∈ cmd, (!isSeparator b) = true := fun b hb => by rw [hword b hb]; rfl
    have hstop : tail.takeWhile (fun b => !isSeparator b) = [] ∧ tail.dropWhile (fun b => !isSeparator b) = tail := by
      cases tail with
      | nil => exact ⟨rfl,rfl⟩
      | cons b tail =>
        have hb : isSeparator b = true := htail b rfl
        simp [hb]
    rw [List.takeWhile_append_of_pos hall,List.dropWhile_append_of_pos hall,hstop.1,hstop.2,List.append_nil]

theorem parseSlash_ask : parseSlash (lit " /ask why?\n") = (lit "ask",lit "why?") :=
  (parseSlash_iff (by decide)).mpr ⟨lit " why?",by decide,forall_of_all (by decide),
    fun b hb => by obtain rfl := Option.some.inj hb; rfl,by decide⟩

lemma valid_parseSlash (h : valid body = true) : valid (parseSlash body).1 = true ∧ valid (parseSlash body).2 = true := by
  obtain hslash | ⟨rest,hrest⟩ := slash_cases (trimSpace body)
  · rw [parseSlash_none hslash]
    exact ⟨rfl,rfl⟩
  · rw [parseSlash_rest hrest]
    have hvalid : valid rest = true := by
      have htrim := valid_trimSpace h
      rw [hrest] at htrim
      exact (valid_append_left (s := [47]) rfl rest).symm.trans htrim
    rw [← rest.takeWhile_append_dropWhile (p := fun b => !isSeparator b)] at hvalid
    cases htail : rest.dropWhile fun b => !isSeparator b with
    | nil =>
      rw [htail,List.append_nil] at hvalid
      exact ⟨hvalid,rfl⟩
    | cons b tail =>
      have hb : isSeparator b = true := by
        have := List.head?_dropWhile_not (fun b => !isSeparator b) rest
        rw [htail] at this
        simpa using this
      have hlow : ∀ c ∈ [b], c < 128 := by
        simp only [isSeparator,Bool.or_eq_true,beq_iff_eq,or_assoc] at hb
        obtain rfl | rfl | rfl := hb <;> simp
      rw [htail,← List.singleton_append,← List.append_assoc] at hvalid
      obtain ⟨hcmd,hargs⟩ := valid_around hlow (by simp) hvalid
      refine ⟨hcmd,valid_trimSpace ?_⟩
      exact (valid_append_left (valid_of_ascii [b] hlow) tail).trans hargs

end Slash

def triggerMatches (trigger action : Bytes) : Bool :=
  if trigger = lit "on_open" then action = lit "opened" || action = lit "reopened"
  else if trigger = lit "on_sync" then decide (action = lit "synchronize")
  else if trigger = lit "always" then
    action = lit "opened" || action = lit "synchronize" || action = lit "reopened"
  else false

/-- Which actions set a tool off. -/
lemma triggerMatches_iff {trigger action : Bytes} : triggerMatches trigger action = true ↔
    (trigger = lit "on_open" ∧ (action = lit "opened" ∨ action = lit "reopened")) ∨
      (trigger = lit "on_sync" ∧ action = lit "synchronize") ∨
        (trigger = lit "always" ∧ (action = lit "opened" ∨ action = lit "synchronize" ∨ action = lit "reopened")) := by
  have hsync : lit "on_open" ≠ lit "on_sync" := by decide
  have halways : lit "on_open" ≠ lit "always" ∧ lit "on_sync" ≠ lit "always" := by decide
  rw [triggerMatches]
  split
  · next h => simp [h,hsync,halways.1]
  · next hopen =>
    split
    · next h => simp [h,hsync.symm,halways.2]
    · next hno =>
      split
      · next h => simp [h,halways.1.symm,halways.2.symm,or_assoc]
      · next h => simp [hopen,hno,h]

/-- The tools that run by themselves, as `config.Default` has them. -/
def DefaultAuto : GoMap Bytes Bytes := .ofEntries [(lit "review",lit "on_open"),(lit "describe",lit "on_open")]

/-- The jobs of the tools whose trigger the action sets off, in the order the map is gone through. -/
def autoJobs (provider : Kind) (repo : Bytes) (number : ℤ) (head action : Bytes) (auto : List (Bytes × Bytes)) :
    List Job :=
  (auto.filter fun t => triggerMatches t.2 action).map fun t => .tool {
    provider := provider
    tool := t.1
    repoFullName := repo
    prNumber := number
    headSHA := head
    trigger := action }

/-- The job of a comment, if it is a command. -/
def commandJobs (provider : Kind) (repo : Bytes) (number : ℤ) (body : Bytes) : List Job :=
  let command := parseSlash body
  if command.1 = [] then []
  else [.tool {
    provider := provider
    tool := command.1
    repoFullName := repo
    prNumber := number
    trigger := lit "command"
    args := command.2 }]

def releaseJob (provider : Kind) (repo toRef : Bytes) : Job :=
  .release { provider := provider, repo := repo, toRef := toRef }

/-- The job of a release that has been published. -/
def releaseJobs (provider : Kind) (releaseTrigger repo toRef : Bytes) : List Job :=
  if releaseTrigger ≠ [] ∧ releaseTrigger ≠ lit "release" then []
  else if toRef = [] ∨ repo = [] then []
  else [releaseJob provider repo toRef]

def defaultTagPattern : Bytes := lit "v*"

/-- The job of a tag that has been created, if its name matches. -/
def tagJobs (provider : Kind) (tagPattern repo ref : Bytes) : List Job :=
  let tagName := trimPrefix ref (lit "refs/tags/")
  let pattern := if tagPattern = [] then defaultTagPattern else tagPattern
  match Glob.Match pattern tagName with
  | some true => [releaseJob provider repo tagName]
  | _ => []

section Plain
variable {provider : Kind} {repo : Bytes}

lemma autoJobs_plain {number : ℤ} {head action : Bytes} {auto : List (Bytes × Bytes)} (hp : valid provider = true)
    (hrepo : valid repo = true) (hnumber : Findings.int64Ok number = true) (hhead : valid head = true)
    (haction : valid action = true) (hauto : ∀ t ∈ auto, valid t.1 = true) :
    ∀ j ∈ autoJobs provider repo number head action auto, j.Plain := by
  intro j hj
  obtain ⟨t,ht,rfl⟩ := List.mem_map.mp hj
  exact ⟨hp,hauto t (List.mem_filter.mp ht).1,rfl,hrepo,hnumber,hhead,haction,rfl⟩

lemma commandJobs_plain {number : ℤ} {body : Bytes} (hp : valid provider = true) (hrepo : valid repo = true)
    (hnumber : Findings.int64Ok number = true) (hbody : valid body = true) :
    ∀ j ∈ commandJobs provider repo number body, j.Plain := by
  intro j hj
  obtain ⟨hcmd,hargs⟩ := valid_parseSlash hbody
  rw [commandJobs] at hj
  split at hj
  · exact absurd hj (List.not_mem_nil)
  · obtain rfl := List.mem_singleton.mp hj
    exact ⟨hp,hcmd,rfl,hrepo,hnumber,rfl,valid_encode "command".toList,hargs⟩

lemma releaseJobs_plain {releaseTrigger toRef : Bytes} (hp : valid provider = true) (hrepo : valid repo = true)
    (href : valid toRef = true) : ∀ j ∈ releaseJobs provider releaseTrigger repo toRef, j.Plain := by
  intro j hj
  rw [releaseJobs] at hj
  split at hj
  · exact absurd hj (List.not_mem_nil)
  · split at hj
    · exact absurd hj (List.not_mem_nil)
    · obtain rfl := List.mem_singleton.mp hj
      exact ⟨hp,hrepo,rfl,rfl,href⟩

end Plain

/-- The response to a delivery, and the jobs that are enqueued for it. -/
abbrev Outcome := Response × List Job

def accepted : Response := ⟨202,[]⟩

/-- What both endpoints do: a delivery is parsed after it has been let in, and jobs are made of nothing else. -/
def serve {E : Type} (verify : Bytes → Option Err) (rejected : Bytes) (parse : Bytes → Except Err E)
    (jobs : E → List Job) (body : Option Bytes) : Outcome :=
  match body with
  | none => (⟨400,lit "read body"⟩,[])
  | some body =>
    match verify body with
    | some _ => (⟨401,rejected⟩,[])
    | none =>
      match parse body with
      | .error err => (⟨400,err⟩,[])
      | .ok e => (accepted,jobs e)

lemma serve_jobs {E : Type} {verify : Bytes → Option Err} {rejected : Bytes} {parse : Bytes → Except Err E}
    {jobs : E → List Job} {body : Option Bytes} {j : Job} (h : j ∈ (serve verify rejected parse jobs body).2) :
    ∃ text e, body = some text ∧ verify text = none ∧ parse text = .ok e ∧ j ∈ jobs e := by
  cases body with
  | none => exact absurd h (List.not_mem_nil)
  | some text =>
    rw [serve] at h
    cases hverify : verify text with
    | some err => simp [hverify] at h
    | none =>
      cases hparse : parse text with
      | error err => simp [hverify,hparse] at h
      | ok e => exact ⟨text,e,rfl,hverify,hparse,by simpa [hverify,hparse] using h⟩

namespace GitHub

structure PullRequestEvent where
  action : Bytes
  repo : Bytes
  number : ℤ
  headSHA : Bytes

structure IssueCommentEvent where
  action : Bytes
  repo : Bytes
  number : ℤ
  onPullRequest : Bool
  body : Bytes

structure ReleaseEvent where
  action : Bytes
  repo : Bytes
  tagName : Bytes

structure PushEvent where
  ref : Bytes
  created : Bool
  deleted : Bool
  repo : Bytes

inductive Event where
  | pullRequest (e : PullRequestEvent)
  | issueComment (e : IssueCommentEvent)
  | release (e : ReleaseEvent)
  | push (e : PushEvent)
  | other

/-- The texts of an event are valid and its numbers machine integers, as they are when read from JSON. -/
def Event.Plain : Event → Prop
  | pullRequest e => valid e.action = true ∧ valid e.repo = true ∧ Findings.int64Ok e.number = true ∧
      valid e.headSHA = true
  | issueComment e => valid e.repo = true ∧ Findings.int64Ok e.number = true ∧ valid e.body = true
  | release e => valid e.repo = true ∧ valid e.tagName = true
  | push e => valid e.ref = true ∧ valid e.repo = true
  | other => True

def handlePR (auto : List (Bytes × Bytes)) (e : PullRequestEvent) : List Job :=
  if e.action ≠ lit "opened" ∧ e.action ≠ lit "synchronize" ∧ e.action ≠ lit "reopened" then []
  else autoJobs KindGitHub e.repo e.number e.headSHA e.action auto

def handleComment (e : IssueCommentEvent) : List Job :=
  if e.onPullRequest = false ∨ e.action ≠ lit "created" then []
  else commandJobs KindGitHub e.repo e.number e.body

def handleRelease (releaseTrigger : Bytes) (e : ReleaseEvent) : List Job :=
  if e.action ≠ lit "published" then [] else releaseJobs KindGitHub releaseTrigger e.repo e.tagName

def handleTagPush (releaseTrigger tagPattern : Bytes) (e : PushEvent) : List Job :=
  if releaseTrigger ≠ lit "tag" then []
  else if hasPrefix e.ref (lit "refs/tags/") = false then []
  else if e.created = false ∨ e.deleted = true then []
  else tagJobs KindGitHub tagPattern e.repo e.ref

def jobs (auto : List (Bytes × Bytes)) : Event → List Job
  | .pullRequest e => handlePR auto e
  | .issueComment e => handleComment e
  | .release e => handleRelease (lit "release") e
  | .push e => handleTagPush (lit "release") (lit "v*") e
  | .other => []

lemma jobs_plain {auto : List (Bytes × Bytes)} (hauto : ∀ t ∈ auto, valid t.1 = true) {e : Event} (h : e.Plain) :
    ∀ j ∈ jobs auto e, j.Plain := by
  intro j hj
  cases e with
  | pullRequest e =>
    obtain ⟨haction,hrepo,hnumber,hhead⟩ := h
    rw [jobs,handlePR] at hj
    split at hj
    · exact absurd hj (List.not_mem_nil)
    · exact autoJobs_plain (by decide) hrepo hnumber hhead haction hauto j hj
  | issueComment e =>
    obtain ⟨hrepo,hnumber,hbody⟩ := h
    rw [jobs,handleComment] at hj
    split at hj
    · exact absurd hj (List.not_mem_nil)
    · exact commandJobs_plain (by decide) hrepo hnumber hbody j hj
  | release e =>
    rw [jobs,handleRelease] at hj
    split at hj
    · exact absurd hj (List.not_mem_nil)
    · exact releaseJobs_plain (by decide) h.1 h.2 j hj
  | push e => exact absurd hj (List.not_mem_nil)
  | other => exact absurd hj (List.not_mem_nil)

/-- `POST /webhook/github`; `auto` is the map of `config.Default`, in the order it is gone through. -/
def webhookHandler (secret : Bytes) (parse : Bytes → Bytes → Except Err Event) (auto : List (Bytes × Bytes))
    (r : Request) : Outcome :=
  serve (VerifySignature secret (r.header (lit "X-Hub-Signature-256"))) (lit "bad signature")
    (parse (r.header (lit "X-Github-Event"))) (jobs auto) r.body

end GitHub

namespace GitLab

structure MergeEvent where
  action : Bytes
  repo : Bytes
  iid : ℤ
  lastCommit : Bytes

structure MergeCommentEvent where
  repo : Bytes
  iid : ℤ
  note : Bytes

structure ReleaseEvent where
  action : Bytes
  repo : Bytes
  tag : Bytes

structure TagEvent where
  ref : Bytes
  after : Bytes
  repo : Bytes

inductive Event where
  | merge (e : MergeEvent)
  | mergeComment (e : MergeCommentEvent)
  | release (e : ReleaseEvent)
  | tag (e : TagEvent)
  | other

def Event.Plain : Event → Prop
  | merge e => valid e.repo = true ∧ Findings.int64Ok e.iid = true ∧ valid e.lastCommit = true
  | mergeComment e => valid e.repo = true ∧ Findings.int64Ok e.iid = true ∧ valid e.note = true
  | release e => valid e.repo = true ∧ valid e.tag = true
  | tag e => valid e.ref = true ∧ valid e.repo = true
  | other => True

def mapMRAction (glAction : Bytes) : Bytes :=
  if glAction = lit "open" then lit "opened"
  else if glAction = lit "reopen" then lit "reopened"
  else if glAction = lit "update" then lit "synchronize"
  else []

def handleMR (auto : List (Bytes × Bytes)) (e : MergeEvent) : List Job :=
  let action := mapMRAction e.action
  if action = [] then [] else autoJobs KindGitLab e.repo e.iid e.lastCommit action auto

def handleNote (e : MergeCommentEvent) : List Job :=
  if e.iid = 0 then [] else commandJobs KindGitLab e.repo e.iid e.note

def handleRelease (releaseTrigger : Bytes) (e : ReleaseEvent) : List Job :=
  if e.action ≠ lit "create" then [] else releaseJobs KindGitLab releaseTrigger e.repo e.tag

def zeroSHA : Bytes := lit "0000000000000000000000000000000000000000"

def handleTagPush (releaseTrigger tagPattern : Bytes) (e : TagEvent) : List Job :=
  if releaseTrigger ≠ lit "tag" then []
  else if e.after = [] ∨ e.after = zeroSHA then []
  else if hasPrefix e.ref (lit "refs/tags/") = false then []
  else tagJobs KindGitLab tagPattern e.repo e.ref

def jobs (auto : List (Bytes × Bytes)) : Event → List Job
  | .merge e => handleMR auto e
  | .mergeComment e => handleNote e
  | .release e => handleRelease (lit "release") e
  | .tag e => handleTagPush (lit "release") (lit "v*") e
  | .other => []

lemma valid_mapMRAction (glAction : Bytes) : valid (mapMRAction glAction) = true := by
  rw [mapMRAction]
  split
  · decide
  · split
    · decide
    · split <;> decide

lemma jobs_plain {auto : List (Bytes × Bytes)} (hauto : ∀ t ∈ auto, valid t.1 = true) {e : Event} (h : e.Plain) :
    ∀ j ∈ jobs auto e, j.Plain := by
  intro j hj
  cases e with
  | merge e =>
    obtain ⟨hrepo,hnumber,hhead⟩ := h
    rw [jobs,handleMR] at hj
    split at hj
    · exact absurd hj (List.not_mem_nil)
    · exact autoJobs_plain (by decide) hrepo hnumber hhead (valid_mapMRAction _) hauto j hj
  | mergeComment e =>
    obtain ⟨hrepo,hnumber,hbody⟩ := h
    rw [jobs,handleNote] at hj
    split at hj
    · exact absurd hj (List.not_mem_nil)
    · exact commandJobs_plain (by decide) hrepo hnumber hbody j hj
  | release e =>
    rw [jobs,handleRelease] at hj
    split at hj
    · exact absurd hj (List.not_mem_nil)
    · exact releaseJobs_plain (by decide) h.1 h.2 j hj
  | tag e => exact absurd hj (List.not_mem_nil)
  | other => exact absurd hj (List.not_mem_nil)

/-- `POST /webhook/gitlab`. -/
def webhookHandler (secret : Bytes) (parse : Bytes → Bytes → Except Err Event) (auto : List (Bytes × Bytes))
    (r : Request) : Outcome :=
  serve (fun _ => VerifyToken secret (r.header (lit "X-Gitlab-Token"))) (lit "bad token")
    (parse (r.header (lit "X-Gitlab-Event"))) (jobs auto) r.body

end GitLab

section Auto
variable {m : GoMap Bytes Bytes} {auto : List (Bytes × Bytes)}

lemma triggerMatches_action {trigger action : Bytes} (h : triggerMatches trigger action = true) :
    action = lit "opened" ∨ action = lit "synchronize" ∨ action = lit "reopened" := by
  obtain ⟨-,h | h⟩ | ⟨-,h⟩ | ⟨-,h⟩ := triggerMatches_iff.mp h
  · exact .inl h
  · exact .inr (.inr h)
  · exact .inr (.inl h)
  · exact h

/-- The handler's own look at the action changes nothing: no trigger matches another one. -/
lemma handlePR_eq (e : GitHub.PullRequestEvent) : GitHub.handlePR auto e =
    autoJobs KindGitHub e.repo e.number e.headSHA e.action auto := by
  rw [GitHub.handlePR]
  split
  · next h =>
    refine (List.map_eq_nil_iff.mpr (List.filter_eq_nil_iff.mpr fun t _ ht => ?_)).symm
    obtain hact | hact | hact := triggerMatches_action ht
    · exact h.1 hact
    · exact h.2.1 hact
    · exact h.2.2 hact
  · rfl

lemma handleMR_eq (e : GitLab.MergeEvent) : GitLab.handleMR auto e =
    autoJobs KindGitLab e.repo e.iid e.lastCommit (GitLab.mapMRAction e.action) auto := by
  rw [GitLab.handleMR]
  split
  · next h =>
    rw [h]
    refine (List.map_eq_nil_iff.mpr (List.filter_eq_nil_iff.mpr fun t _ ht => ?_)).symm
    obtain hact | hact | hact := triggerMatches_action ht <;> exact absurd hact (by decide)
  · rfl

/-- One job for each tool whose trigger the action sets off, and no other job. -/
def OneEach (m : GoMap Bytes Bytes) (provider : Kind) (repo : Bytes) (number : ℤ) (head action : Bytes)
    (jobs : List Job) : Prop :=
  jobs.Nodup ∧ ∀ j, j ∈ jobs ↔ ∃ tool trigger, AList.lookup tool m = some trigger ∧
    triggerMatches trigger action = true ∧ j = .tool {
      provider := provider
      tool := tool
      repoFullName := repo
      prNumber := number
      headSHA := head
      trigger := action }

lemma oneEach_autoJobs (h : auto.Perm m.toList) (provider : Kind) (repo : Bytes) (number : ℤ) (head action : Bytes) :
    OneEach m provider repo number head action (autoJobs provider repo number head action auto) := by
  have hkeys : (auto.map Prod.fst).Nodup := by
    refine (h.map Prod.fst).nodup_iff.mpr ?_
    rw [GoMap.toList,List.map_map]
    exact m.nodupKeys
  constructor
  · have hfst : ((auto.filter fun t => triggerMatches t.2 action).map Prod.fst).Nodup :=
      hkeys.sublist (List.filter_sublist.map Prod.fst)
    refine List.Nodup.of_map (fun | .tool j => j.tool | .release _ => []) ?_
    rw [autoJobs,List.map_map]
    exact hfst
  · intro j
    rw [autoJobs,List.mem_map]
    constructor
    · rintro ⟨⟨tool,trigger⟩,ht,rfl⟩
      obtain ⟨hmem,hmatch⟩ := List.mem_filter.mp ht
      exact ⟨tool,trigger,GoMap.mem_toList.mp (h.mem_iff.mp hmem),hmatch,rfl⟩
    · rintro ⟨tool,trigger,hlookup,hmatch,rfl⟩
      exact ⟨(tool,trigger),List.mem_filter.mpr ⟨h.mem_iff.mpr (GoMap.mem_toList.mpr hlookup),hmatch⟩,rfl⟩

/-- In whatever order the map is gone through, an event of either host has one job for each tool that its action
sets off; an action of GitLab's counts as the one of GitHub's it stands for. -/
theorem handlers_oneEach (h : auto.Perm m.toList) (pr : GitHub.PullRequestEvent) (mr : GitLab.MergeEvent) :
    OneEach m KindGitHub pr.repo pr.number pr.headSHA pr.action (GitHub.handlePR auto pr) ∧
    OneEach m KindGitLab mr.repo mr.iid mr.lastCommit (GitLab.mapMRAction mr.action) (GitLab.handleMR auto mr) := by
  rw [handlePR_eq,handleMR_eq]
  exact ⟨oneEach_autoJobs h _ _ _ _ _,oneEach_autoJobs h _ _ _ _ _⟩

theorem default_oneEach :
    OneEach DefaultAuto KindGitHub (lit "o/r") 7 (lit "c0") (lit "opened")
      (GitHub.handlePR DefaultAuto.toList ⟨lit "opened",lit "o/r",7,lit "c0"⟩) ∧
    OneEach DefaultAuto KindGitLab (lit "g/p") 8 (lit "c1") (GitLab.mapMRAction (lit "update"))
      (GitLab.handleMR DefaultAuto.toList ⟨lit "update",lit "g/p",8,lit "c1"⟩) :=
  handlers_oneEach (.refl _) ⟨lit "opened",lit "o/r",7,lit "c0"⟩ ⟨lit "update",lit "g/p",8,lit "c1"⟩

end Auto

end Webhook
