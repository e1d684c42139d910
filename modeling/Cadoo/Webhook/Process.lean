import Cadoo.Jobs.Queue
import Cadoo.Webhook.Events

/-! The webhook process without a database: deliveries are served at the same time, each enqueues its jobs one by
one, and one loop takes them out of the in-memory queue. It hands the tool jobs to the dispatcher, if a host is
configured, and drops them otherwise; the endpoints ask for no more than a secret. -/
namespace Webhook
open Bytes Vcs Jobs Steps

/-- The settings that `buildDispatcher` and the endpoints read, and the clients that parse the events. -/
structure Service where
  gitHubAppID : ℤ := 0
  gitHubAppPrivateKeyPEM : Bytes := []
  gitHubDefaultInstallationID : ℤ := 0
  gitHubWebhookSecret : Bytes
  gitLabToken : Bytes := []
  gitLabWebhookSecret : Bytes
  parseGitHub : Bytes → Bytes → Except Err GitHub.Event
  parseGitLab : Bytes → Bytes → Except Err GitLab.Event

namespace Service

def HasGitHub (svc : Service) : Bool :=
  svc.gitHubAppID ≠ 0 && svc.gitHubAppPrivateKeyPEM ≠ [] && svc.gitHubDefaultInstallationID ≠ 0

def HasGitLab (svc : Service) : Bool := svc.gitLabToken ≠ [] && svc.gitLabWebhookSecret ≠ []

/-- Whether `buildDispatcher` makes a dispatcher; where it fails, the process does not start. -/
def dispatcher (svc : Service) : Bool := svc.HasGitHub || svc.HasGitLab

end Service

def Job.envelope : Job → Envelope
  | tool j => j.envelope
  | release j => ReleaseJob.envelope j

/-- `inflight` are the deliveries being served, each with the jobs it has not enqueued; `sent` are the jobs that went
into the queue, `dropped` those whose delivery was given up on before. -/
structure Process where
  queue : System Handler
  inflight : List (List Job) := []
  sent : List Job := []
  dropped : List Job := []

inductive Event where
  | gitHub (auto : List (Bytes × Bytes)) (r : Request)
  | gitLab (auto : List (Bytes × Bytes)) (r : Request)
  | enqueue (delivery : ℕ)
  | giveUp (delivery : ℕ)
  | queue (ev : Jobs.Event Handler)

/-- The jobs that come of an event. -/
def Event.jobs (svc : Service) : Event → List Job
  | gitHub auto r => (GitHub.webhookHandler svc.gitHubWebhookSecret svc.parseGitHub auto r).2
  | gitLab auto r => (GitLab.webhookHandler svc.gitLabWebhookSecret svc.parseGitLab auto r).2
  | enqueue _ | giveUp _ | queue _ => []

/-- The map of automatic tools is gone through in one of its orders. -/
def Event.Ordered : Event → Prop
  | gitHub auto _ | gitLab auto _ => auto.Perm DefaultAuto.toList
  | enqueue _ | giveUp _ | queue _ => True

/-- A delivery with the right signature, or the right token. -/
def Event.Authentic (svc : Service) : Event → Prop
  | gitHub _ r => svc.gitHubWebhookSecret ≠ [] ∧ ∃ body, r.body = some body ∧
      r.header (lit "X-Hub-Signature-256") =
        lit "sha256=" ++ Sha1.hex (Sha256.hmac svc.gitHubWebhookSecret body)
  | gitLab _ r => svc.gitLabWebhookSecret ≠ [] ∧ r.header (lit "X-Gitlab-Token") = svc.gitLabWebhookSecret
  | enqueue _ | giveUp _ | queue _ => False

/-- The clients read valid texts and machine integers out of the JSON they are given. -/
structure Service.Decodes (svc : Service) : Prop where
  gitHub : ∀ ty body e, svc.parseGitHub ty body = .ok e → e.Plain
  gitLab : ∀ ty body e, svc.parseGitLab ty body = .ok e → e.Plain

lemma Event.authentic_of_mem {svc : Service} {ev : Event} {j : Job} (h : j ∈ ev.jobs svc) : ev.Authentic svc := by
  cases ev with
  | gitHub auto r =>
    obtain ⟨body,e,hbody,hverify,-,-⟩ := serve_jobs h
    obtain ⟨hsecret,hheader⟩ := VerifySignature_eq_none.mp hverify
    exact ⟨hsecret,body,hbody,hheader⟩
  | gitLab auto r =>
    obtain ⟨body,e,-,hverify,-,-⟩ := serve_jobs h
    exact VerifyToken_eq_none.mp hverify
  | enqueue i => exact absurd h (List.not_mem_nil)
  | giveUp i => exact absurd h (List.not_mem_nil)
  | queue ev => exact absurd h (List.not_mem_nil)

lemma Event.plain_of_mem {svc : Service} (hsvc : svc.Decodes) {ev : Event} (hev : ev.Ordered) {j : Job}
    (h : j ∈ ev.jobs svc) : j.Plain := by
  have hnames : ∀ {auto : List (Bytes × Bytes)}, auto.Perm DefaultAuto.toList → ∀ t ∈ auto, Utf8.valid t.1 = true := by
    intro auto hauto t ht
    have hall : ∀ t ∈ DefaultAuto.toList, Utf8.valid t.1 = true := by decide
    exact hall t (hauto.mem_iff.mp ht)
  cases ev with
  | gitHub auto r =>
    obtain ⟨body,e,-,-,hparse,hj⟩ := serve_jobs h
    exact GitHub.jobs_plain (hnames hev) (hsvc.gitHub _ _ e hparse) j hj
  | gitLab auto r =>
    obtain ⟨body,e,-,-,hparse,hj⟩ := serve_jobs h
    exact GitLab.jobs_plain (hnames hev) (hsvc.gitLab _ _ e hparse) j hj
  | enqueue i => exact absurd h (List.not_mem_nil)
  | giveUp i => exact absurd h (List.not_mem_nil)
  | queue ev => exact absurd h (List.not_mem_nil)

namespace Process

def start (svc : Service) : Process where
  queue := { queue := ⟨handlers svc.dispatcher,[],Nat.zero_le _⟩, loops := [.selecting] }

/-- The handlers that `buildEnqueue` registers, one after the other. -/
def registered (dispatcher : Bool) : List (Jobs.Event Handler) :=
  [if dispatcher then .register ToolJob.Kind .dispatcher else .register (lit "noop") .noop,
    .register ReleaseJob.Kind .logOnly]

/-- The queue of `start` is a new one, after `buildEnqueue`. -/
lemma start_queue (svc : Service) : run System.step (.start 1) (registered svc.dispatcher) = some (start svc).queue := by
  rw [start]
  cases svc.dispatcher <;> rfl

def step (svc : Service) (p : Process) : Event → Option Process
  | .gitHub auto r =>
    if auto.Perm DefaultAuto.toList then some { p with inflight := p.inflight ++ [(Event.gitHub auto r).jobs svc] }
    else none
  | .gitLab auto r =>
    if auto.Perm DefaultAuto.toList then some { p with inflight := p.inflight ++ [(Event.gitLab auto r).jobs svc] }
    else none
  | .enqueue i =>
    match p.inflight[i]? with
    | some (j :: rest) => (p.queue.step (.enqueue j.envelope)).map fun q =>
        { p with queue := q, inflight := p.inflight.set i rest, sent := p.sent ++ [j] }
    | _ => none
  | .giveUp i =>
    match p.inflight[i]? with
    | some (j :: rest) => some { p with inflight := p.inflight.set i rest, dropped := p.dropped ++ [j] }
    | _ => none
  | .queue ev => if ev.ofLoop then (p.queue.step ev).map fun q => { p with queue := q } else none

variable {svc : Service} {p q : Process}

lemma step_cases {ev : Event} (h : p.step svc ev = some q) : ev.Ordered ∧
    (q = { p with inflight := p.inflight ++ [ev.jobs svc] } ∨
    (∃ i j rest s, ev.jobs svc = [] ∧ p.inflight[i]? = some (j :: rest) ∧
      p.queue.step (.enqueue j.envelope) = some s ∧
      q = { p with queue := s, inflight := p.inflight.set i rest, sent := p.sent ++ [j] }) ∨
    (∃ i j rest, ev.jobs svc = [] ∧ p.inflight[i]? = some (j :: rest) ∧
      q = { p with inflight := p.inflight.set i rest, dropped := p.dropped ++ [j] }) ∨
    ∃ qev s, ev.jobs svc = [] ∧ qev.ofLoop = true ∧ p.queue.step qev = some s ∧ q = { p with queue := s }) := by
  cases ev with
  | gitHub auto r =>
    simp only [step] at h
    split at h
    · next hauto => exact ⟨hauto,.inl (Option.some.inj h).symm⟩
    · exact absurd h (by simp)
  | gitLab auto r =>
    simp only [step] at h
    split at h
    · next hauto => exact ⟨hauto,.inl (Option.some.inj h).symm⟩
    · exact absurd h (by simp)
  | enqueue i =>
    simp only [step] at h
    split at h
    · next j rest hi =>
      obtain ⟨s,hs,hq⟩ := Option.map_eq_some_iff.mp h
      exact ⟨trivial,.inr (.inl ⟨i,j,rest,s,rfl,hi,hs,hq.symm⟩)⟩
    · exact absurd h (by simp)
  | giveUp i =>
    simp only [step] at h
    split at h
    · next j rest hi => exact ⟨trivial,.inr (.inr (.inl ⟨i,j,rest,rfl,hi,(Option.some.inj h).symm⟩))⟩
    · exact absurd h (by simp)
  | queue qev =>
    simp only [step] at h
    split at h
    · next hev =>
      obtain ⟨s,hs,hq⟩ := Option.map_eq_some_iff.mp h
      exact ⟨trivial,.inr (.inr (.inr ⟨qev,s,rfl,hev,hs,hq.symm⟩))⟩
    · exact absurd h (by simp)

/-- Every job that came of a delivery is still to be enqueued, given up on, or in the queue; the jobs of the queue
are the ones that were sent, in order. -/
structure Accounted (svc : Service) (past : List Event) (p : Process) : Prop where
  jobs : (p.inflight.flatten ++ (p.dropped ++ p.sent)).Perm (past.flatMap (Event.jobs svc))
  ordered : ∀ ev ∈ past, ev.Ordered
  orderly : p.queue.Orderly
  inOrder : p.queue.InOrder
  alone : p.queue.loops.length = 1
  steady : p.queue.Steady (handlers svc.dispatcher)
  accepted : p.queue.accepted = p.sent.map Job.envelope

lemma accounted_start : Accounted svc [] (start svc) where
  jobs := .nil
  ordered := by simp
  orderly := ⟨rfl,.nil⟩
  inOrder := fun _ => rfl
  alone := rfl
  steady := ⟨rfl,by simp [start],by simp [start]⟩
  accepted := rfl

/-- A job that leaves a delivery. -/
lemma flatten_release {i : ℕ} {j : Job} {rest : List Job} (hi : p.inflight[i]? = some (j :: rest)) :
    p.inflight.flatten.Perm (j :: (p.inflight.set i rest).flatten) := by
  have h := perm_release (f := fun js : List Job => js) (y := rest) hi rfl
  rwa [List.flatMap_id',List.flatMap_id'] at h

lemma Accounted.step {past : List Event} {ev : Event} (hp : p.Accounted svc past) (h : p.step svc ev = some q) :
    q.Accounted svc (past ++ [ev]) := by
  obtain ⟨hev,h⟩ := step_cases h
  have hordered : ∀ ev' ∈ past ++ [ev], ev'.Ordered := by
    rw [List.forall_mem_append,List.forall_mem_singleton]
    exact ⟨hp.ordered,hev⟩
  have hjobs : ∀ {inflight : List (List Job)} {out : List Job},
      (inflight.flatten ++ out).Perm (p.inflight.flatten ++ (p.dropped ++ p.sent)) → ev.jobs svc = [] →
        (inflight.flatten ++ out).Perm ((past ++ [ev]).flatMap (Event.jobs svc)) := by
    intro inflight out hperm hnone
    rw [List.flatMap_append,List.flatMap_singleton,hnone,List.append_nil]
    exact hperm.trans hp.jobs
  -- a job that leaves a delivery is found on one of the two other lists
  have hmoved : ∀ {i : ℕ} {j : Job} {rest out : List Job}, p.inflight[i]? = some (j :: rest) →
      out.Perm (j :: (p.dropped ++ p.sent)) →
        ((p.inflight.set i rest).flatten ++ out).Perm (p.inflight.flatten ++ (p.dropped ++ p.sent)) := by
    intro i j rest out hi hout
    refine (hout.append_left _).trans (List.perm_middle.trans ?_)
    exact ((flatten_release hi).append_right _).symm
  obtain rfl | ⟨i,j,rest,s,hnone,hi,hs,rfl⟩ | ⟨i,j,rest,hnone,hi,rfl⟩ | ⟨qev,s,hnone,hloop,hs,rfl⟩ := h
  · refine { hp with jobs := ?_, ordered := hordered }
    rw [List.flatMap_append,List.flatMap_singleton,List.flatten_append,List.flatten_singleton,List.append_assoc]
    refine (List.perm_append_comm.append_left _).trans ?_
    rw [← List.append_assoc]
    exact hp.jobs.append_right _
  · obtain ⟨hlen,hacc⟩ : s.loops.length = 1 ∧ s.accepted = p.queue.accepted ++ [j.envelope] := by
      obtain ⟨q',-,rfl⟩ := Option.map_eq_some_iff.mp hs
      exact ⟨hp.alone,rfl⟩
    refine ⟨hjobs (hmoved hi ?_) hnone,hordered,hp.orderly.step hs,hp.inOrder.step hs,hlen,hp.steady.step hs (by simp),?_⟩
    · rw [← List.append_assoc]
      exact List.perm_append_singleton j _
    · rw [hacc,hp.accepted,List.map_append]
      rfl
  · refine { hp with jobs := hjobs (hmoved hi ?_) hnone, ordered := hordered }
    exact (List.perm_append_singleton j _).append_right _
  · obtain ⟨hacc,hreg⟩ := System.step_ofLoop hs hloop
    exact ⟨hjobs (.refl _) hnone,hordered,hp.orderly.step hs,hp.inOrder.step hs,
      (System.length_step hs).trans hp.alone,hp.steady.step hs hreg,hacc.trans hp.accepted⟩

/-- The payloads the dispatcher has been handed. -/
def dispatched (p : Process) : List Bytes :=
  (p.queue.done.filter fun d => d.1 = some .dispatcher).map fun d => d.2.payload

/-- The payloads of tool jobs that were taken out of the queue and dropped. -/
def unhandled (p : Process) : List Bytes :=
  (p.queue.done.filter fun d => d.1 = none ∧ d.2.kind = ToolJob.Kind).map fun d => d.2.payload

/-- The payloads of tool jobs in the loop's hand or in the queue. -/
def waiting (p : Process) : List Bytes :=
  ((p.queue.inHand ++ p.queue.queue.ch).filter fun e => e.kind = ToolJob.Kind).map Envelope.payload

def tools (js : List Job) : List ToolJob :=
  js.filterMap fun
    | .tool j => some j
    | .release _ => none

lemma dispatcher_iff (dispatcher : Bool) (kind : Bytes) :
    (handlers dispatcher).lookup kind = some .dispatcher ↔ dispatcher = true ∧ kind = ToolJob.Kind := by
  constructor
  · intro h
    have hmem := GoMap.isSome_lookup_ofEntries.mp (Option.isSome_of_eq_some h)
    rw [List.map_cons,List.map_singleton,List.mem_cons,List.mem_singleton] at hmem
    cases dispatcher with
    | true =>
      obtain rfl | rfl := hmem
      · exact ⟨rfl,rfl⟩
      · exact absurd ((handlers_release true).symm.trans h) nofun
    | false =>
      obtain rfl | rfl := hmem
      · exact absurd ((show (handlers false).lookup (lit "noop") = some .noop from rfl).symm.trans h) nofun
      · exact absurd ((handlers_release false).symm.trans h) nofun
  · rintro ⟨rfl,rfl⟩
    rfl

lemma tools_payload (js : List Job) :
    ((js.map Job.envelope).filter fun e => e.kind = ToolJob.Kind).map Envelope.payload =
      (tools js).map ToolJob.payload := by
  induction js with
  | nil => rfl
  | cons j js ih =>
    cases j with
    | tool j => simpa [tools,Job.envelope,ToolJob.envelope] using ih
    | release j =>
      have hne : ReleaseJob.Kind ≠ ToolJob.Kind := by decide
      simpa [tools,Job.envelope,ReleaseJob.envelope,hne] using ih

/-- The tool jobs done with, in the order they were sent: all of them for the dispatcher, or all of them dropped. -/
lemma Accounted.toolsDone {past : List Event} (hp : p.Accounted svc past) :
    p.dispatched ++ p.unhandled =
      (p.queue.finished.filter fun e => e.kind = ToolJob.Kind).map Envelope.payload ∧
        if svc.dispatcher then p.unhandled = [] else p.dispatched = [] := by
  have hdone : (p.queue.finished.filter fun e => e.kind = ToolJob.Kind).map Envelope.payload =
      (p.queue.done.filter fun d => d.2.kind = ToolJob.Kind).map fun d => d.2.payload := by
    rw [System.finished,List.filter_map,List.map_map]
    rfl
  have hsteady := hp.steady.done
  rw [hdone]
  cases hdispatcher : svc.dispatcher with
  | true =>
    rw [hdispatcher] at hsteady
    have hall : p.dispatched = (p.queue.done.filter fun d => d.2.kind = ToolJob.Kind).map fun d => d.2.payload := by
      refine congrArg _ (List.filter_congr fun d hd => ?_)
      rw [← hsteady d.1 d.2 hd]
      exact decide_eq_decide.mpr ((dispatcher_iff true d.2.kind).trans (and_iff_right rfl))
    have hnone : p.unhandled = [] := by
      rw [unhandled,List.map_eq_nil_iff,List.filter_eq_nil_iff]
      rintro ⟨o,e⟩ hd h
      obtain ⟨rfl,hkind⟩ := of_decide_eq_true h
      have := hsteady none e hd
      rw [hkind,handlers_tool] at this
      exact absurd this (by simp)
    exact ⟨by rw [hall,hnone,List.append_nil],hnone⟩
  | false =>
    rw [hdispatcher] at hsteady
    have hnone : p.dispatched = [] := by
      rw [dispatched,List.map_eq_nil_iff,List.filter_eq_nil_iff]
      rintro ⟨o,e⟩ hd h
      obtain rfl := of_decide_eq_true h
      exact absurd ((dispatcher_iff false e.kind).mp (hsteady _ e hd)).1 (by simp)
    have hall : p.unhandled = (p.queue.done.filter fun d => d.2.kind = ToolJob.Kind).map fun d => d.2.payload := by
      refine congrArg _ (List.filter_congr fun d hd => decide_eq_decide.mpr (and_iff_right_of_imp fun hkind => ?_))
      rw [← hsteady d.1 d.2 hd,hkind,handlers_tool]
      rfl
    exact ⟨by rw [hall,hnone,List.nil_append],hnone⟩

/-- What is done with and what waits are the tool jobs that were sent. -/
lemma Accounted.payloads {past : List Event} (hp : p.Accounted svc past) :
    p.dispatched ++ p.unhandled ++ p.waiting = (tools p.sent).map ToolJob.payload := by
  have hall : p.queue.finished ++ (p.queue.inHand ++ p.queue.queue.ch) = p.sent.map Job.envelope := by
    rw [← List.append_assoc,hp.inOrder hp.alone.le,hp.orderly.fifo,hp.accepted]
  rw [hp.toolsDone.1,waiting,← List.map_append,← List.filter_append,hall,tools_payload]

/-- In every run, however deliveries and the queue take turns: the tool jobs done with, and then those in the loop's
hand or still in the queue, are the ones sent, in order, each as it was sent. The dispatcher was handed all that are done
with when a host is configured; with a secret alone they were dropped. Release jobs are logged. The jobs sent, given up
on or still to be enqueued are, one for one, those of the deliveries, of which only authentic ones have any. -/
theorem run_conserves (hsvc : svc.Decodes) {es : List Event} (h : run (step svc) (start svc) es = some p) :
    (p.dispatched ++ p.unhandled ++ p.waiting).map ToolJob.ofPayload = (tools p.sent).map some ∧
      (if svc.dispatcher then p.unhandled = [] else p.dispatched = []) ∧
      (∀ o e, (o,e) ∈ p.queue.done → e.kind = ReleaseJob.Kind → o = some .logOnly) ∧
      (p.inflight.flatten ++ (p.dropped ++ p.sent)).Perm (es.flatMap (Event.jobs svc)) ∧
      ∀ j ∈ p.sent, ∃ ev ∈ es, ev.Authentic svc ∧ j ∈ ev.jobs svc := by
  have hp : p.Accounted svc es := run_history h accounted_start fun _ _ _ _ hstep hp => hp.step hstep
  have hsent : ∀ j ∈ p.sent, ∃ ev ∈ es, j ∈ ev.jobs svc := by
    intro j hj
    refine List.mem_flatMap.mp (hp.jobs.mem_iff.mp ?_)
    exact List.mem_append_right _ (List.mem_append_right _ hj)
  refine ⟨?_,hp.toolsDone.2,fun o e hd hkind => ?_,hp.jobs,fun j hj => ?_⟩
  · rw [hp.payloads,List.map_map]
    refine List.map_congr_left fun j hj => ?_
    obtain ⟨job,hjob,hsome⟩ := List.mem_filterMap.mp hj
    obtain ⟨ev,hev,hmem⟩ := hsent job hjob
    have hplain := Event.plain_of_mem hsvc (hp.ordered ev hev) hmem
    cases job with
    | tool k =>
      obtain rfl := Option.some.inj hsome
      rw [Function.comp_apply,ToolJob.Plain.ofPayload hplain]
    | release k => exact absurd hsome (by simp)
  · rw [← hp.steady.done o e hd,hkind,handlers_release]
  · obtain ⟨ev,hev,hmem⟩ := hsent j hj
    exact ⟨ev,hev,Event.authentic_of_mem hmem,hmem⟩

section Example

/-- A note on a merge request that asks for a review. -/
def exampleService : Service where
  gitHubWebhookSecret := []
  gitLabToken := lit "token"
  gitLabWebhookSecret := lit "hush"
  parseGitHub := fun _ _ => .error []
  parseGitLab := fun _ _ => .ok (.mergeComment ⟨lit "acme/shop",7,lit "/review please"⟩)

def exampleRequest : Request where
  header := fun key => if key = lit "X-Gitlab-Token" then lit "hush" else []
  body := some []

def exampleEvents : List Event :=
  [.gitLab DefaultAuto.toList exampleRequest,.enqueue 0,.queue (.receive 0),.queue (.lookUp 0),.queue (.finish 0)]

lemma exampleService_decodes : exampleService.Decodes where
  gitHub := fun _ _ e h => absurd h (by simp [exampleService])
  gitLab := fun _ _ e h => by
    obtain rfl := Except.ok.inj h
    exact ⟨by decide,by decide,by decide⟩

theorem example_conserves : ∃ p, run (step exampleService) (start exampleService) exampleEvents = some p ∧
    p.dispatched ≠ [] ∧ (p.dispatched ++ p.unhandled ++ p.waiting).map ToolJob.ofPayload = (tools p.sent).map some ∧
      (if exampleService.dispatcher then p.unhandled = [] else p.dispatched = []) ∧
      (∀ o e, (o,e) ∈ p.queue.done → e.kind = ReleaseJob.Kind → o = some .logOnly) ∧
      (p.inflight.flatten ++ (p.dropped ++ p.sent)).Perm (exampleEvents.flatMap (Event.jobs exampleService)) ∧
      ∀ j ∈ p.sent, ∃ ev ∈ exampleEvents, ev.Authentic exampleService ∧ j ∈ ev.jobs exampleService := by
  obtain ⟨p,hp,hsent⟩ : ∃ p, run (step exampleService) (start exampleService) exampleEvents = some p ∧
      p.dispatched ≠ [] := ⟨_,rfl,List.cons_ne_nil _ _⟩
  exact ⟨p,hp,hsent,run_conserves exampleService_decodes hp⟩

end Example

end Process

end Webhook
