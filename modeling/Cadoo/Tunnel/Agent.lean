import Cadoo.Lib.Decimal
import Cadoo.Lib.LetterCase
import Cadoo.Lib.Steps
import Cadoo.Webhook.Events

/-! The agent of the reverse tunnel: it polls the service for deliveries, replays each one on the local webhook, and
waits before it polls again. -/
namespace Tunnel
open Bytes Vcs Steps Webhook

structure Config where
  UpstreamURL : Bytes
  TenantID : Bytes
  AgentToken : Bytes
  LocalForward : Bytes
  PollInterval : ℤ

/-- A webhook that the service wants replayed. -/
structure Delivery where
  id : Bytes
  headers : GoMap Bytes Bytes
  path : Bytes
  body : Bytes

/-- What becomes of a request: it has no answer, or one with a status and a body. -/
inductive Reply where
  | failed (err : Err)
  | answered (code : ℕ) (body : Bytes)

section Headers

def validHeaderFieldByte (b : UInt8) : Bool :=
  (97 ≤ b && b ≤ 122) || (65 ≤ b && b ≤ 90) || isDecimal b || b ∈ lit "!#$%&'*+-.^_`|~"

/-- Capitals at the start and behind each dash, small letters elsewhere. -/
def canonicalFrom : Bool → Bytes → Bytes
  | _, [] => []
  | upper, b :: key => (if upper then Utf8.upperByte b else Utf8.lowerByte b) :: canonicalFrom (b == 45) key

def CanonicalHeaderKey (key : Bytes) : Bytes := if key.all validHeaderFieldByte then canonicalFrom true key else key

/-- The header after one `Set` for each entry, in turn. -/
def setAll (entries : List (Bytes × Bytes)) : GoMap Bytes Bytes :=
  .ofEntries (entries.map fun e => (CanonicalHeaderKey e.1,e.2))

example : CanonicalHeaderKey (lit "x-hub-signature-256") = lit "X-Hub-Signature-256" := by decide

end Headers

/-- A request to the local webhook. -/
structure Posted where
  url : Bytes
  header : GoMap Bytes Bytes
  body : Bytes

/-- What the local webhook's handlers see of it. -/
def Posted.request (p : Posted) : Request where
  header := p.header.get
  body := some p.body

/-- A call of `forward`: the request it made, if the URL could be parsed, and the error it returned. -/
structure Attempt where
  delivery : Delivery
  posted : Option Posted
  err : Option Err

inductive Phase where
  | polling
  | forwarding (rest : List Delivery)
  | resting
  | backingOff
  | stopped

structure Agent where
  cfg : Config
  backoff : ℤ
  phase : Phase := .polling
  attempts : List Attempt := []

/-- The reply to a poll; the headers of the next delivery in the order they are gone through, with the local
webhook's reply; the end of the deliveries; the end of a wait; and the end of the context. -/
inductive Event where
  | poll (r : Reply)
  | forward (order : List (Bytes × Bytes)) (r : Reply)
  | pollDone
  | timer
  | canceled

def second : ℤ := 1000000000
def minute : ℤ := 60 * second

/-- How URLs and the service's answers are parsed. -/
structure Parsers where
  url : Bytes → Except Err Unit
  decode : Bytes → Except Err (List Delivery)

variable (P : Parsers)

/-- The deliveries a poll brings, or its error. -/
def pollOnce (cfg : Config) (r : Reply) : Except Err (List Delivery) :=
  match P.url (cfg.UpstreamURL ++ lit "/v1/tunnel/poll?tenant=" ++ cfg.TenantID) with
  | .error err => .error err
  | .ok () =>
    match r with
    | .failed err => .error (lit "poll: " ++ err)
    | .answered code body =>
      if code = 204 then .ok []
      else if 300 ≤ code then .error (lit "poll status " ++ natDecimal code ++ lit ": " ++ body)
      else
        match P.decode body with
        | .error err => .error (lit "decode poll response: " ++ err)
        | .ok ds => .ok ds

def forward (cfg : Config) (d : Delivery) (order : List (Bytes × Bytes)) (r : Reply) : Attempt :=
  let url := cfg.LocalForward ++ d.path
  match P.url url with
  | .error err => ⟨d,none,some err⟩
  | .ok () => {
    delivery := d
    posted := some ⟨url,setAll order,d.body⟩
    err := match r with
      | .failed err => some err
      | .answered code body =>
        if 300 ≤ code then some (lit "local forward returned " ++ natDecimal code ++ lit ": " ++ body) else none }

namespace Agent

def start (cfg : Config) : Agent := { cfg := cfg, backoff := second }

def step (a : Agent) : Event → Option Agent
  | .poll r =>
    match a.phase with
    | .polling =>
      match pollOnce P a.cfg r with
      | .ok ds => some { a with phase := .forwarding ds }
      | .error _ => some { a with phase := .backingOff }
    | _ => none
  | .forward order r =>
    match a.phase with
    | .forwarding (d :: rest) =>
      if order.Perm d.headers.toList then
        some { a with phase := .forwarding rest, attempts := a.attempts ++ [forward P a.cfg d order r] }
      else none
    | _ => none
  | .pollDone =>
    match a.phase with
    | .forwarding [] => some { a with phase := .resting, backoff := second }
    | _ => none
  | .timer =>
    match a.phase with
    | .resting => some { a with phase := .polling }
    | .backingOff => some { a with phase := .polling, backoff := if a.backoff < minute then a.backoff * 2 else a.backoff }
    | _ => none
  | .canceled =>
    match a.phase with
    | .polling | .resting | .backingOff => some { a with phase := .stopped }
    | _ => none

/-- The deliveries of the poll under way that have not been replayed. -/
def pending (a : Agent) : List Delivery :=
  match a.phase with
  | .forwarding rest => rest
  | _ => []

end Agent

/-- The deliveries that came with an event. -/
def Event.deliveries (cfg : Config) : Event → List Delivery
  | .poll r => (pollOnce P cfg r).toOption.getD []
  | _ => []

/-- How many polls in a row have failed after one more event. -/
def Event.failures (cfg : Config) (k : ℕ) : Event → ℕ
  | .poll r => if (pollOnce P cfg r).toOption.isSome then 0 else k+1
  | _ => k

def failures (cfg : Config) (es : List Event) : ℕ := es.foldl (Event.failures P cfg) 0

/-- The wait after one more failure than the given number. -/
def backoffAfter (k : ℕ) : ℤ := second * 2 ^ min k 6

/-- How the wait before the next poll goes with the failures so far. -/
def Agent.Paced (a : Agent) (k : ℕ) : Prop :=
  match a.phase with
  | .polling => a.backoff = backoffAfter k
  | .forwarding _ => k = 0
  | .resting => a.backoff = backoffAfter k ∧ k = 0
  | .backingOff => 0 < k ∧ a.backoff = backoffAfter (k-1)
  | .stopped => True

structure Agent.Accounted (cfg : Config) (past : List Event) (a : Agent) : Prop where
  settings : a.cfg = cfg
  deliveries : a.attempts.map Attempt.delivery ++ a.pending = past.flatMap (Event.deliveries P cfg)
  attempts : ∀ t ∈ a.attempts, ∃ order r, order.Perm t.delivery.headers.toList ∧ t = forward P cfg t.delivery order r
  paced : a.Paced (failures P cfg past)

lemma backoffAfter_succ (k : ℕ) :
    (if backoffAfter k < minute then backoffAfter k * 2 else backoffAfter k) = backoffAfter (k+1) := by
  by_cases hk : k < 6
  · have hsmall : ∀ i < 6, backoffAfter i < minute ∧ backoffAfter i * 2 = backoffAfter (i+1) := by decide
    rw [if_pos (hsmall k hk).1]
    exact (hsmall k hk).2
  · have hcap : ∀ i, 6 ≤ i → backoffAfter i = second * 2 ^ 6 := fun i hi => by rw [backoffAfter,Nat.min_eq_right hi]
    rw [hcap k (by omega),hcap (k+1) (by omega)]
    decide

lemma failures_append (cfg : Config) (past : List Event) (ev : Event) :
    failures P cfg (past ++ [ev]) = ev.failures P cfg (failures P cfg past) := by
  rw [failures,List.foldl_append]
  rfl

variable {P} {cfg : Config} {a b : Agent} {past : List Event}

namespace Agent

lemma accounted_start : (start cfg).Accounted P cfg [] where
  settings := rfl
  deliveries := rfl
  attempts := by simp [start]
  paced := rfl

/-- Everything a step can do. -/
lemma step_cases {ev : Event} (h : a.step P ev = some b) :
    (∃ r ds, ev = .poll r ∧ a.phase = .polling ∧ pollOnce P a.cfg r = .ok ds ∧ b = { a with phase := .forwarding ds }) ∨
    (∃ r err, ev = .poll r ∧ a.phase = .polling ∧ pollOnce P a.cfg r = .error err ∧
      b = { a with phase := .backingOff }) ∨
    (∃ order r d rest, ev = .forward order r ∧ a.phase = .forwarding (d :: rest) ∧ order.Perm d.headers.toList ∧
      b = { a with phase := .forwarding rest, attempts := a.attempts ++ [forward P a.cfg d order r] }) ∨
    (ev = .pollDone ∧ a.phase = .forwarding [] ∧ b = { a with phase := .resting, backoff := second }) ∨
    (ev = .timer ∧ a.phase = .resting ∧ b = { a with phase := .polling }) ∨
    (ev = .timer ∧ a.phase = .backingOff ∧
      b = { a with phase := .polling, backoff := if a.backoff < minute then a.backoff * 2 else a.backoff }) ∨
    (ev = .canceled ∧ (∀ rest, a.phase ≠ .forwarding rest) ∧ b = { a with phase := .stopped }) := by
  obtain ⟨cfg,backoff,phase,attempts⟩ := a
  cases ev with
  | poll r =>
    cases phase <;> simp only [step,reduceCtorEq] at h
    cases hpoll : pollOnce P cfg r with
    | ok ds => exact .inl ⟨r,ds,rfl,rfl,hpoll,by simpa [hpoll] using h.symm⟩
    | error err => exact .inr (.inl ⟨r,err,rfl,rfl,hpoll,by simpa [hpoll] using h.symm⟩)
  | forward order r =>
    cases phase with
    | forwarding rest =>
      cases rest with
      | nil => simp [step] at h
      | cons d rest =>
        simp only [step] at h
        split at h
        · next horder => exact .inr (.inr (.inl ⟨order,r,d,rest,rfl,rfl,horder,(Option.some.inj h).symm⟩))
        · exact absurd h (by simp)
    | _ => simp [step] at h
  | pollDone =>
    cases phase with
    | forwarding rest =>
      cases rest with
      | nil => exact .inr (.inr (.inr (.inl ⟨rfl,rfl,(Option.some.inj h).symm⟩)))
      | cons d rest => simp [step] at h
    | _ => simp [step] at h
  | timer =>
    cases phase with
    | resting => exact .inr (.inr (.inr (.inr (.inl ⟨rfl,rfl,(Option.some.inj h).symm⟩))))
    | backingOff => exact .inr (.inr (.inr (.inr (.inr (.inl ⟨rfl,rfl,(Option.some.inj h).symm⟩)))))
    | _ => simp [step] at h
  | canceled =>
    cases phase with
    | forwarding rest => simp [step] at h
    | stopped => simp [step] at h
    | _ => exact .inr (.inr (.inr (.inr (.inr (.inr ⟨rfl,by simp,(Option.some.inj h).symm⟩)))))

lemma forward_delivery (d : Delivery) (order : List (Bytes × Bytes)) (r : Reply) :
    (forward P cfg d order r).delivery = d := by
  simp only [forward]
  cases P.url (cfg.LocalForward ++ d.path) <;> rfl

lemma Accounted.step {ev : Event} (ha : a.Accounted P cfg past) (h : a.step P ev = some b) :
    b.Accounted P cfg (past ++ [ev]) := by
  obtain ⟨rfl,hdeliveries,hattempts,hpaced⟩ := ha
  -- nothing comes with an event other than a poll, and none of them counts as a failure
  have hquiet : ∀ {ev : Event} {l : List Delivery}, ev.deliveries P a.cfg = [] → l = a.attempts.map Attempt.delivery ++ a.pending →
      l = (past ++ [ev]).flatMap (Event.deliveries P a.cfg) := by
    intro ev l hnone hl
    rw [List.flatMap_append,List.flatMap_singleton,hnone,List.append_nil,hl,hdeliveries]
  obtain ⟨r,ds,rfl,hphase,hpoll,rfl⟩ | ⟨r,err,rfl,hphase,hpoll,rfl⟩ | ⟨order,r,d,rest,rfl,hphase,horder,rfl⟩ |
    ⟨rfl,hphase,rfl⟩ | ⟨rfl,hphase,rfl⟩ | ⟨rfl,hphase,rfl⟩ | ⟨rfl,hphase,rfl⟩ := step_cases h
  · refine ⟨rfl,?_,hattempts,?_⟩
    · have hnone : a.pending = [] := by simp [pending,hphase]
      rw [List.flatMap_append,List.flatMap_singleton,← hdeliveries,hnone,List.append_nil,Event.deliveries,hpoll]
      rfl
    · simp [Paced,failures_append,Event.failures,hpoll,Except.toOption]
  · refine ⟨rfl,hquiet ?_ ?_,hattempts,?_⟩
    · simp [Event.deliveries,hpoll,Except.toOption]
    · simp [pending,hphase]
    · rw [Paced,hphase] at hpaced
      simpa [Paced,failures_append,Event.failures,hpoll,Except.toOption] using hpaced
  · refine ⟨rfl,hquiet rfl ?_,?_,?_⟩
    · simp [pending,hphase,forward_delivery]
    · intro t ht
      obtain ht | ht := List.mem_append.mp ht
      · exact hattempts t ht
      · obtain rfl := List.mem_singleton.mp ht
        rw [forward_delivery]
        exact ⟨order,r,horder,rfl⟩
    · rw [Paced,hphase] at hpaced
      rw [failures_append]
      exact hpaced
  · refine ⟨rfl,hquiet rfl ?_,hattempts,?_⟩
    · simp [pending,hphase]
    · rw [Paced,hphase] at hpaced
      rw [failures_append]
      refine ⟨?_,hpaced⟩
      change second = backoffAfter (failures P a.cfg past)
      rw [hpaced]
      rfl
  · refine ⟨rfl,hquiet rfl ?_,hattempts,?_⟩
    · simp [pending,hphase]
    · rw [Paced,hphase] at hpaced
      rw [failures_append]
      exact hpaced.1
  · refine ⟨rfl,hquiet rfl ?_,hattempts,?_⟩
    · simp [pending,hphase]
    · rw [Paced,hphase] at hpaced
      rw [failures_append,Paced]
      change (if a.backoff < minute then a.backoff * 2 else a.backoff) = backoffAfter (failures P a.cfg past)
      rw [hpaced.2,backoffAfter_succ,Nat.sub_add_cancel hpaced.1]
  · refine ⟨rfl,hquiet rfl ?_,hattempts,trivial⟩
    cases hp : a.phase with
    | forwarding rest => exact absurd hp (hphase rest)
    | _ => simp [pending,hp]

lemma run_accounted {es : List Event} (h : run (step P) (start cfg) es = some a) : a.Accounted P cfg es :=
  run_history h accounted_start fun _ _ _ _ hstep ha => ha.step hstep

end Agent

section Replay
variable {d : Delivery} {r : Request} {order : List (Bytes × Bytes)}

/-- The service made the delivery of a request: it has the request's body, and all of its header under keys that
`Set` does not confuse. -/
structure Delivery.Carries (d : Delivery) (r : Request) : Prop where
  distinct : ∀ k ∈ d.headers, ∀ l ∈ d.headers, CanonicalHeaderKey k = CanonicalHeaderKey l → k = l
  header : ∀ k v, d.headers.lookup k = some v → r.header (CanonicalHeaderKey k) = v
  complete : ∀ k, r.header (CanonicalHeaderKey k) ≠ [] → ∃ l ∈ d.headers, CanonicalHeaderKey l = CanonicalHeaderKey k
  body : r.body = some d.body

/-- The order in which the header is set makes no difference. -/
lemma get_setAll (hd : d.Carries r) (horder : order.Perm d.headers.toList) (key : Bytes) :
    (setAll order).get (CanonicalHeaderKey key) = r.header (CanonicalHeaderKey key) := by
  have hmem : ∀ {k v}, (k,v) ∈ order ↔ d.headers.lookup k = some v := fun {k v} =>
    horder.mem_iff.trans GoMap.mem_toList
  have hentry : ∀ {c v}, (c,v) ∈ order.map (fun e => (CanonicalHeaderKey e.1,e.2)) →
      ∃ k, CanonicalHeaderKey k = c ∧ d.headers.lookup k = some v := by
    intro c v hv
    obtain ⟨⟨k,w⟩,hk,he⟩ := List.mem_map.mp hv
    obtain ⟨rfl,rfl⟩ := Prod.mk.inj he
    exact ⟨k,rfl,hmem.mp hk⟩
  have hkey : ∀ {k v}, d.headers.lookup k = some v → k ∈ d.headers := fun hk =>
    AList.lookup_isSome.mp (by rw [hk]; rfl)
  have hunique : ∀ c v w, (c,v) ∈ order.map (fun e => (CanonicalHeaderKey e.1,e.2)) →
      (c,w) ∈ order.map (fun e => (CanonicalHeaderKey e.1,e.2)) → v = w := by
    intro c v w hv hw
    obtain ⟨k,hkc,hk⟩ := hentry hv
    obtain ⟨l,hlc,hl⟩ := hentry hw
    have hkl := hd.distinct k (hkey hk) l (hkey hl) (hkc.trans hlc.symm)
    exact Option.some.inj (hk.symm.trans (hkl ▸ hl))
  rw [GoMap.get]
  cases hlookup : (setAll order).lookup (CanonicalHeaderKey key) with
  | some v =>
    obtain ⟨k,hkc,hk⟩ := hentry ((GoMap.lookup_ofEntries (hunique _)).mp hlookup)
    rw [← hkc,hd.header k v hk]
    rfl
  | none =>
    by_contra hne
    obtain ⟨l,hl,hlc⟩ := hd.complete key fun h => hne h.symm
    obtain ⟨v,hv⟩ := Option.isSome_iff_exists.mp (AList.lookup_isSome.mpr hl)
    have hset : (CanonicalHeaderKey key,v) ∈ order.map (fun e => (CanonicalHeaderKey e.1,e.2)) :=
      List.mem_map.mpr ⟨(l,v),hmem.mpr hv,by rw [hlc]⟩
    rw [setAll,(GoMap.lookup_ofEntries (hunique _)).mpr hset] at hlookup
    exact absurd hlookup (by simp)

/-- A request to the local webhook that the endpoints cannot tell from the one to the service. -/
def Posted.Replays (p : Posted) (r : Request) : Prop := ∀ secret auto,
  (∀ parse, GitHub.webhookHandler secret parse auto p.request = GitHub.webhookHandler secret parse auto r) ∧
  ∀ parse, GitLab.webhookHandler secret parse auto p.request = GitLab.webhookHandler secret parse auto r

lemma replays_setAll (hd : d.Carries r) (horder : order.Perm d.headers.toList) (url : Bytes) :
    (⟨url,setAll order,d.body⟩ : Posted).Replays r := by
  have hheader : ∀ key, CanonicalHeaderKey key = key →
      (⟨url,setAll order,d.body⟩ : Posted).request.header key = r.header key := by
    intro key hkey
    have h := get_setAll hd horder key
    rwa [hkey] at h
  intro secret auto
  constructor
  · intro parse
    rw [GitHub.webhookHandler,GitHub.webhookHandler,hheader (lit "X-Hub-Signature-256") (by decide),
      hheader (lit "X-Github-Event") (by decide),hd.body]
    rfl
  · intro parse
    rw [GitLab.webhookHandler,GitLab.webhookHandler,hheader (lit "X-Gitlab-Token") (by decide),
      hheader (lit "X-Gitlab-Event") (by decide),hd.body]
    rfl

lemma forward_posted (h : P.url (cfg.LocalForward ++ d.path) = .ok ()) (order : List (Bytes × Bytes)) (reply : Reply) :
    (forward P cfg d order reply).posted = some ⟨cfg.LocalForward ++ d.path,setAll order,d.body⟩ := by
  rw [forward.eq_def]
  simp only [h]

end Replay

/-- In every run: `forward` has been called once for each delivery that polls have brought, in their order and
whatever the local webhook answered, but for those of the poll under way; each call whose URL can be parsed sends
the webhook a request it takes for the one to the service; and the agent waits a second after a failed poll,
twice as long after each further one, up to 64 seconds. -/
theorem Agent.run_replays {es : List Event} (h : run (Agent.step P) (start cfg) es = some a) :
    a.attempts.map Attempt.delivery ++ a.pending = es.flatMap (Event.deliveries P cfg) ∧
    (∀ t ∈ a.attempts, ∀ r, t.delivery.Carries r → P.url (cfg.LocalForward ++ t.delivery.path) = .ok () →
      ∃ p, t.posted = some p ∧ p.url = cfg.LocalForward ++ t.delivery.path ∧ p.Replays r) ∧
    (a.phase = .backingOff → 0 < failures P cfg es ∧ a.backoff = second * 2 ^ min (failures P cfg es - 1) 6) := by
  have ha := run_accounted h
  refine ⟨ha.deliveries,fun t ht r hr hurl => ?_,fun hphase => ?_⟩
  · obtain ⟨order,reply,horder,hforward⟩ := ha.attempts t ht
    refine ⟨⟨cfg.LocalForward ++ t.delivery.path,setAll order,t.delivery.body⟩,?_,rfl,replays_setAll hr horder _⟩
    rw [hforward,forward_delivery]
    exact forward_posted hurl order reply
  · have hpaced := ha.paced
    rw [Paced,hphase] at hpaced
    exact hpaced

section Example

def exampleConfig : Config where
  UpstreamURL := lit "https://api.cadoo.dev"
  TenantID := lit "acme"
  AgentToken := lit "hush"
  LocalForward := lit "http://localhost:8081"
  PollInterval := 5 * second

def exampleDelivery : Delivery where
  id := lit "1"
  headers := .ofEntries [(lit "x-gitlab-token",lit "hush"),(lit "X-Gitlab-Event",lit "Note Hook")]
  path := lit "/webhook/gitlab"
  body := lit "{}"

/-- The request of the delivery; the service has kept one of its keys in small letters. -/
def exampleRequest : Request where
  header := fun k =>
    if k = lit "X-Gitlab-Token" then lit "hush" else if k = lit "X-Gitlab-Event" then lit "Note Hook" else []
  body := some (lit "{}")

lemma exampleDelivery_carries : exampleDelivery.Carries exampleRequest := by
  have hkeys : ∀ k ∈ exampleDelivery.headers, k = lit "x-gitlab-token" ∨ k = lit "X-Gitlab-Event" := by
    have hall : ∀ k ∈ exampleDelivery.headers.keys, k = lit "x-gitlab-token" ∨ k = lit "X-Gitlab-Event" := by decide
    exact fun k hk => hall k (AList.mem_keys.mp hk)
  refine ⟨fun k hk l hl h => ?_,fun k v h => ?_,fun k h => ?_,rfl⟩
  · obtain rfl | rfl := hkeys k hk <;> obtain rfl | rfl := hkeys l hl
    · rfl
    · exact absurd h (by decide)
    · exact absurd h (by decide)
    · rfl
  · obtain rfl | rfl := hkeys k (AList.lookup_isSome.mp (by rw [h]; rfl))
    · exact Option.some.inj (.trans (by decide) h)
    · exact Option.some.inj (.trans (by decide) h)
  · by_cases htoken : CanonicalHeaderKey k = lit "X-Gitlab-Token"
    · exact ⟨lit "x-gitlab-token",by decide,by rw [htoken]; decide⟩
    · by_cases hevent : CanonicalHeaderKey k = lit "X-Gitlab-Event"
      · exact ⟨lit "X-Gitlab-Event",by decide,by rw [hevent]; decide⟩
      · exact absurd (by rw [exampleRequest]; simp only [htoken,hevent,if_false]) h

def exampleParsers : Parsers where
  url := fun _ => .ok ()
  decode := fun body => if body = lit "one" then .ok [exampleDelivery] else .error (lit "EOF")

/-- Two polls fail, one brings a delivery that the webhook refuses, and one fails. -/
def exampleEvents : List Event :=
  [.poll (.failed (lit "timeout")),.timer,.poll (.answered 200 []),.timer,.poll (.answered 200 (lit "one")),
    .forward exampleDelivery.headers.toList (.answered 401 (lit "bad token")),.pollDone,.timer,.poll (.answered 503 [])]

/-- The delivery is tried once, as a request that the webhook takes for the one it carries. -/
theorem example_replays : ∃ a, run (Agent.step exampleParsers) (Agent.start exampleConfig) exampleEvents = some a ∧
    a.attempts.map Attempt.delivery ++ a.pending = [exampleDelivery] ∧
    (∃ t ∈ a.attempts, ∃ p, t.posted = some p ∧ p.url = lit "http://localhost:8081/webhook/gitlab" ∧
      p.Replays exampleRequest) ∧
    a.phase = .backingOff ∧ a.backoff = second := by
  obtain ⟨a,ha,hphase⟩ : ∃ a, run (Agent.step exampleParsers) (Agent.start exampleConfig) exampleEvents = some a ∧
      a.phase = .backingOff := ⟨_,rfl,rfl⟩
  obtain ⟨hdeliveries,hreplays,hbackoff⟩ := Agent.run_replays ha
  have hone : a.attempts.map Attempt.delivery ++ a.pending = [exampleDelivery] := hdeliveries
  have hnone : a.pending = [] := by rw [Agent.pending,hphase]
  rw [hnone,List.append_nil] at hone
  obtain ⟨t,ht,hdelivery⟩ := List.mem_map.mp (hone ▸ List.mem_singleton_self exampleDelivery)
  obtain ⟨p,hposted,hurl,hsame⟩ := hreplays t ht exampleRequest (hdelivery ▸ exampleDelivery_carries) rfl
  refine ⟨a,ha,by rw [hnone,List.append_nil,hone],⟨t,ht,p,hposted,?_,hsame⟩,hphase,(hbackoff hphase).2⟩
  rw [hurl,hdelivery]
  rfl

end Example

end Tunnel
