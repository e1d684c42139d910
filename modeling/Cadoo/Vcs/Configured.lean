import Cadoo.Vcs.GitHub
import Cadoo.Vcs.GitLab

/-! The adapters a service builds from its settings, and the pool it registers them in. The API clients
are parameters: what the adapters ask of a host, and all they do but name themselves and fetch. -/
open Bytes Vcs

/-- The settings that decide which hosts a service serves. -/
structure Settings where
  gitHubBaseURL : Bytes := []
  gitHubUploadURL : Bytes := []
  gitHubAppID : ℤ := 0
  gitHubAppPrivateKeyPEM : Bytes := []
  gitHubDefaultInstallationID : ℤ := 0
  gitLabBaseURL : Bytes := []
  gitLabToken : Bytes := []
  gitLabWebhookSecret : Bytes := []

namespace Settings

def HasGitHub (s : Settings) : Bool :=
  s.gitHubAppID ≠ 0 ∧ 0 < s.gitHubAppPrivateKeyPEM.length ∧ s.gitHubDefaultInstallationID ≠ 0

def HasGitLab (s : Settings) : Bool := s.gitLabToken ≠ [] ∧ s.gitLabWebhookSecret ≠ []

end Settings

/-- A host's API: a pull request by repository and number, and the adapter over everything else. -/
structure Client (W R : Type) where
  get : R → ℤ → W → Except Err PullRequest
  rest : Provider W

/-- A client answers with the pull request it was asked for. -/
def Client.Numbered {W R : Type} (c : Client W R) : Prop :=
  ∀ repo number w pr, c.get repo number w = .ok pr → pr.number = number

variable {W : Type}

namespace GitHub

structure Config where
  baseURL : Bytes := []
  uploadURL : Bytes := []
  appID : ℤ := 0
  installationID : ℤ := 0
  privateKeyPEM : Bytes := []
  token : Bytes := []

/-- github.com or an enterprise server, by the base URL. -/
def Config.Kind (cfg : Config) : Kind :=
  if cfg.baseURL = [] then KindGitHub else KindGitHubEnterprise

lemma Config.kind_iff {cfg : Config} : cfg.Kind = KindGitHub ↔ cfg.baseURL = [] := by
  rw [Config.Kind]
  split
  · next h => exact iff_of_true rfl h
  · next h => exact iff_of_false (by decide) h

/-- The repository is named as the caller named it. -/
def FetchPullRequest (get : Bytes × Bytes → ℤ → W → Except Err PullRequest) (repo : Bytes)
    (number : ℤ) (w : W) : Except Err PullRequest :=
  match splitRepo repo with
  | none => .error invalidRepo
  | some owner => (get owner number w).map fun pr => { pr with repoFullName := repo }

def New (client : Config → Except Err (Client W (Bytes × Bytes))) (cfg : Config) :
    Except Err (Provider W) :=
  (client cfg).map fun c => { c.rest with kind := cfg.Kind, fetchPullRequest := FetchPullRequest c.get }

end GitHub

namespace GitLab

structure Config where
  baseURL : Bytes := []
  token : Bytes := []

def FetchPullRequest (get : Bytes → ℤ → W → Except Err PullRequest) (repo : Bytes) (number : ℤ)
    (w : W) : Except Err PullRequest :=
  (get repo number w).map fun pr => { pr with repoFullName := repo }

def New (client : Config → Except Err (Client W Bytes)) (cfg : Config) : Except Err (Provider W) :=
  (client cfg).map fun c =>
    { c.rest with kind := KindGitLab, fetchPullRequest := FetchPullRequest c.get }

end GitLab

namespace Settings

/-- The adapter of a configured host; an error ends the build. -/
def adapterIf (configured : Bool) (adapter : Except Err (Provider W)) :
    Except Err (Option (Provider W)) :=
  if configured then adapter.map some else .ok none

variable (github : GitHub.Config → Except Err (Client W (Bytes × Bytes)))
  (gitlab : GitLab.Config → Except Err (Client W Bytes)) (s : Settings)

def gitHubConfig : GitHub.Config where
  baseURL := s.gitHubBaseURL
  uploadURL := s.gitHubUploadURL
  appID := s.gitHubAppID
  installationID := s.gitHubDefaultInstallationID
  privateKeyPEM := s.gitHubAppPrivateKeyPEM

/-- The pool `buildDispatcher` fills, none when neither host is configured. A GitHub adapter is
registered as github.com, whatever it calls itself. -/
def buildPool : Except Err (Option (Kind → Option (Provider W))) := do
  let gh ← adapterIf s.HasGitHub (GitHub.New github s.gitHubConfig)
  let gl ← adapterIf s.HasGitLab (GitLab.New gitlab ⟨s.gitLabBaseURL,s.gitLabToken⟩)
  if gh.isNone && gl.isNone then .ok none
  else .ok (some fun k => if k = KindGitHub then gh else if k = KindGitLab then gl else none)

/-- Whether a job's adapter goes by another name than the one it is registered under. -/
def Renames (k : Kind) : Prop := k = KindGitHub ∧ s.gitHubBaseURL ≠ []

variable {github gitlab s}

lemma map_ok {ε α β : Type} {x : Except ε α} {f : α → β} {b : β} (h : x.map f = .ok b) :
    ∃ a, x = .ok a ∧ f a = b := by
  cases x with
  | error e => cases h
  | ok a => exact ⟨a,rfl,Except.ok.inj h⟩

lemma bind_ok {ε α β : Type} {x : Except ε α} {f : α → Except ε β} {b : β} (h : x >>= f = .ok b) :
    ∃ a, x = .ok a ∧ f a = .ok b := by
  cases x with
  | error e => cases h
  | ok a => exact ⟨a,rfl,h⟩

lemma adapterIf_some {b : Bool} {x : Except Err (Provider W)} {o : Option (Provider W)}
    {p : Provider W} (h : adapterIf b x = .ok o) (hp : o = some p) : x = .ok p := by
  subst hp
  rw [adapterIf] at h
  split at h
  · obtain ⟨q,hq,hqp⟩ := map_ok h
    rw [hq,Option.some.inj hqp]
  · cases h

/-- A pool holds the adapters of its configured hosts, each under one name. -/
lemma buildPool_cases {pool : Kind → Option (Provider W)}
    (h : s.buildPool github gitlab = .ok (some pool)) {k : Kind} {p : Provider W}
    (hp : pool k = some p) : (k = KindGitHub ∧ GitHub.New github s.gitHubConfig = .ok p) ∨
      (k = KindGitLab ∧ GitLab.New gitlab ⟨s.gitLabBaseURL,s.gitLabToken⟩ = .ok p) := by
  obtain ⟨gh,hgh,h⟩ := bind_ok h
  obtain ⟨gl,hgl,h⟩ := bind_ok h
  split at h
  · cases h
  · obtain rfl := Option.some.inj (Except.ok.inj h)
    dsimp only at hp
    split at hp
    · next hk => exact .inl ⟨hk,adapterIf_some hgh hp⟩
    · split at hp
      · next hk => exact .inr ⟨hk,adapterIf_some hgl hp⟩
      · cases hp

/-- An adapter of the pool: the name it goes by, and that it fetches what it is asked for. -/
theorem buildPool_adapter {pool : Kind → Option (Provider W)}
    (h : s.buildPool github gitlab = .ok (some pool))
    (hgh : ∀ cfg c, github cfg = .ok c → c.Numbered) (hgl : ∀ cfg c, gitlab cfg = .ok c → c.Numbered)
    {k : Kind} {p : Provider W} (hp : pool k = some p) :
    (p.kind = k ↔ ¬ s.Renames k) ∧ ∀ repo number w pr,
      p.fetchPullRequest repo number w = .ok pr → pr.repoFullName = repo ∧ pr.number = number := by
  rcases buildPool_cases h hp with ⟨rfl,hnew⟩ | ⟨rfl,hnew⟩
  · obtain ⟨c,hc,rfl⟩ := map_ok hnew
    refine ⟨?_,fun repo number w pr hf => ?_⟩
    · rw [Renames,not_and_not_right]
      exact GitHub.Config.kind_iff.trans ⟨fun h _ => h,fun h => h rfl⟩
    · simp only [GitHub.FetchPullRequest] at hf
      split at hf
      · cases hf
      · obtain ⟨pr',hget,rfl⟩ := map_ok hf
        exact ⟨rfl,(hgh _ _ hc _ _ _ pr' hget :)⟩
  · obtain ⟨c,hc,rfl⟩ := map_ok hnew
    refine ⟨?_,fun repo number w pr hf => ?_⟩
    · have hne : ¬ s.Renames KindGitLab := fun hr => absurd hr.1 (by decide)
      simp [hne]
    · obtain ⟨pr',hget,rfl⟩ := map_ok hf
      exact ⟨rfl,(hgl _ _ hc _ _ _ pr' hget :)⟩

end Settings
