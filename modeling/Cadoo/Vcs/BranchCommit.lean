import Cadoo.Lib.Decimal
import Cadoo.Lib.GoMap
import Cadoo.Vcs.GitHub
import Cadoo.Vcs.Release

/-! Committing to a branch and keeping a pull request for it: the GitHub adapter's calls, on a repository at a host
that may refuse a call, or serve it and lose the answer. -/
namespace Vcs
open Bytes

/-- What a ref points at: the files by their paths. The blob of a file is told by its content. -/
abbrev Tree := GoMap Bytes Bytes

structure Pull where
  number : ℤ
  headOwner : Bytes
  head : Bytes
  base : Bytes
  title : Bytes
  body : Bytes
  isOpen : Bool
  deriving DecidableEq

/-- A repository, its pull requests newest first. -/
structure Repository where
  defaultBranch : Bytes
  refs : GoMap Bytes Tree
  pulls : List Pull
  nextNumber : ℤ

def heads (branch : Bytes) : Bytes := lit "refs/heads/" ++ branch
def tags (tag : Bytes) : Bytes := lit "refs/tags/" ++ tag

def notFound : Err := lit "404 Not Found"

namespace Repository
variable (r : Repository)

def getRef (ref : Bytes) : Except Err Tree :=
  match r.refs.lookup ref with
  | some tree => .ok tree
  | none => .error notFound

def createRef (ref : Bytes) (tree : Tree) : Except Err Unit × Repository :=
  if (r.refs.lookup ref).isSome then (.error (lit "422 Reference already exists"),r)
  else (.ok (),{ r with refs := r.refs.insert ref tree })

/-- A branch, or else a tag. -/
def resolve (ref : Bytes) : Option Tree := (r.refs.lookup (heads ref)).or (r.refs.lookup (tags ref))

def isDir (tree : Tree) (path : Bytes) : Bool := tree.keys.any fun k => hasPrefix k (path ++ lit "/")

/-- The file at a path; none where there is a directory. -/
def getContents (path ref : Bytes) : Except Err (Option Bytes) :=
  match r.resolve ref with
  | none => .error notFound
  | some tree =>
    match tree.lookup path with
    | some content => .ok (some content)
    | none => if isDir tree path then .ok none else .error notFound

/-- Creates a file, or replaces the one whose blob is given. -/
def putContents (path branch content : Bytes) (sha : Option Bytes) : Except Err Unit × Repository :=
  match r.refs.lookup (heads branch) with
  | none => (.error notFound,r)
  | some tree =>
    if tree.lookup path = sha ∧ isDir tree path = false then
      (.ok (),{ r with refs := r.refs.insert (heads branch) (tree.insert path content) })
    else (.error (lit "409 Conflict"),r)

/-- The open pull requests from a branch of an owner's repository to another branch. -/
def openPulls (owner branch base : Bytes) : List Pull :=
  r.pulls.filter fun p => p.isOpen && p.headOwner = owner && p.head = branch && p.base = base

def edit (number : ℤ) (title body : Bytes) : Except Err ℤ × Repository :=
  if number ∈ r.pulls.map Pull.number then
    (.ok number,{ r with
      pulls := r.pulls.map fun p => if p.number = number then { p with title := title, body := body } else p })
  else (.error notFound,r)

def create (owner title head base body : Bytes) : Except Err ℤ × Repository :=
  (.ok r.nextNumber,{ r with
    pulls := ⟨r.nextNumber,owner,head,base,title,body,true⟩ :: r.pulls
    nextNumber := r.nextNumber+1 })

end Repository

/-- What befalls a call: it is refused, or it is served and its answer is lost. -/
inductive Fault where
  | refused (err : Err)
  | lost (err : Err)

/-- A host with what it keeps of a repository, what will befall the next calls, and whether files can be read by a
ref. -/
structure HostOf (R : Type) where
  owner : Bytes
  name : Bytes
  repository : R
  faults : List (Option Fault) := []
  readFault : Option Err := none

namespace HostOf
variable {R : Type}

def call {α : Type} (owner name : Bytes) (f : R → Except Err α × R) (h : HostOf R) :
    Except Err α × HostOf R :=
  if owner = h.owner ∧ name = h.name then
    match h.faults.head?.join with
    | some (.refused err) => (.error err,{ h with faults := h.faults.tail })
    | some (.lost err) => (.error err,{ h with repository := (f h.repository).2, faults := h.faults.tail })
    | none => ((f h.repository).1,{ h with repository := (f h.repository).2, faults := h.faults.tail })
  else (.error notFound,{ h with faults := h.faults.tail })

/-- A call that reads. -/
def query {α : Type} (owner name : Bytes) (f : R → Except Err α) (h : HostOf R) : Except Err α × HostOf R :=
  h.call owner name fun r => (f r,r)

/-- A read that is not part of a row of calls. -/
def read {α : Type} (owner name : Bytes) (f : R → Except Err α) (h : HostOf R) : Except Err α :=
  if owner = h.owner ∧ name = h.name then
    match h.readFault with
    | some err => .error err
    | none => f h.repository
  else .error notFound

/-- A repository at the same host, now without faults. -/
def clear (h : HostOf R) (r : R) : HostOf R := ⟨h.owner,h.name,r,[],none⟩

/-- The host with what will go wrong next. -/
def facing (h : HostOf R) (faults : List (Option Fault)) (readFault : Option Err) : HostOf R :=
  ⟨h.owner,h.name,h.repository,faults,readFault⟩

variable {α : Type} {owner name : Bytes} {h h' : HostOf R} {res : Except Err α}

lemma call_cases {f : R → Except Err α × R} (hc : h.call owner name f = (res,h')) :
    h'.owner = h.owner ∧ h'.name = h.name ∧
    ((∃ err, res = .error err) ∧ (h'.repository = h.repository ∨ h'.repository = (f h.repository).2) ∨
      owner = h.owner ∧ name = h.name ∧ res = (f h.repository).1 ∧ h'.repository = (f h.repository).2) := by
  rw [call] at hc
  split at hc
  · next hname =>
    split at hc
    all_goals obtain ⟨rfl,rfl⟩ := Prod.mk.inj hc
    · exact ⟨rfl,rfl,.inl ⟨⟨_,rfl⟩,.inl rfl⟩⟩
    · exact ⟨rfl,rfl,.inl ⟨⟨_,rfl⟩,.inr rfl⟩⟩
    · exact ⟨rfl,rfl,.inr ⟨hname.1,hname.2,rfl,rfl⟩⟩
  · obtain ⟨rfl,rfl⟩ := Prod.mk.inj hc
    exact ⟨rfl,rfl,.inl ⟨⟨_,rfl⟩,.inl rfl⟩⟩

/-- Nothing but the faults to come differs. -/
structure Same (h h' : HostOf R) : Prop where
  owner : h'.owner = h.owner
  name : h'.name = h.name
  repository : h'.repository = h.repository

lemma Same.trans {h'' : HostOf R} (hs : Same h h') (hs' : Same h' h'') : Same h h'' :=
  ⟨hs'.owner.trans hs.owner,hs'.name.trans hs.name,hs'.repository.trans hs.repository⟩

lemma query_cases {f : R → Except Err α} (hc : h.query owner name f = (res,h')) :
    Same h h' ∧ ∀ a, res = .ok a → owner = h.owner ∧ name = h.name ∧ f h.repository = .ok a := by
  obtain ⟨howner,hname,⟨⟨err,rfl⟩,hr⟩ | ⟨ho,hn,rfl,hr⟩⟩ := call_cases hc
  · exact ⟨⟨howner,hname,hr.elim id id⟩,fun a ha => absurd ha (by simp)⟩
  · exact ⟨⟨howner,hname,hr⟩,fun a ha => ⟨ho,hn,ha⟩⟩

lemma call_calm (f : R → Except Err α × R) (r : R) (readFault : Option Err) :
    ((h.clear r).facing [] readFault).call h.owner h.name f =
      ((f r).1,(h.clear (f r).2).facing [] readFault) := by
  rw [call,if_pos ⟨rfl,rfl⟩]
  rfl

lemma query_calm (f : R → Except Err α) (r : R) (readFault : Option Err) :
    ((h.clear r).facing [] readFault).query h.owner h.name f = (f r,(h.clear r).facing [] readFault) :=
  call_calm _ r readFault

end HostOf

abbrev Host := HostOf Repository
end Vcs

namespace GitHub
open Bytes Vcs

/-- The branch is there, or is made at the head of the default branch. -/
def ensureBranch (owner name repo branch : Bytes) (h : Host) : Option Err × Host :=
  match h.query owner name fun r => r.getRef (heads branch) with
  | (.ok _,h) => (none,h)
  | (.error _,h) =>
    match h.query owner name fun r => .ok r.defaultBranch with
    | (.error err,h) => (some (lit "get repo " ++ repo ++ lit " to find default branch: " ++ err),h)
    | (.ok defBranch,h) =>
      let defBranch := if defBranch = [] then lit "main" else defBranch
      match h.query owner name fun r => r.getRef (heads defBranch) with
      | (.error err,h) => (some (lit "get head ref " ++ defBranch ++ lit ": " ++ err),h)
      | (.ok baseSHA,h) =>
        match h.call owner name fun r => r.createRef (heads branch) baseSHA with
        | (.error err,h) => (some (lit "create branch " ++ branch ++ lit ": " ++ err),h)
        | (.ok _,h) => (none,h)

def UpsertFile (repo branch _commitMessage : Bytes) (f : FileWrite) (h : Host) : Option Err × Host :=
  match splitRepo repo with
  | none => (some invalidRepo,h)
  | some (owner,name) =>
    match ensureBranch owner name repo branch h with
    | (some err,h) => (some err,h)
    | (none,h) =>
      match h.query owner name fun r => r.getContents f.path branch with
      | (.ok (some sha),h) =>
        match h.call owner name fun r => r.putContents f.path branch f.content (some sha) with
        | (.error err,h) => (some (lit "update file " ++ f.path ++ lit " on " ++ branch ++ lit ": " ++ err),h)
        | (.ok _,h) => (none,h)
      | (_,h) =>
        match h.call owner name fun r => r.putContents f.path branch f.content none with
        | (.error err,h) => (some (lit "create file " ++ f.path ++ lit " on " ++ branch ++ lit ": " ++ err),h)
        | (.ok _,h) => (none,h)

def OpenOrUpdatePR (repo branch base title body : Bytes) (h : Host) : Except Err ℤ × Host :=
  match splitRepo repo with
  | none => (.error invalidRepo,h)
  | some (owner,name) =>
    match h.query owner name fun r => .ok ((r.openPulls owner branch base).take 10) with
    | (.error err,h) => (.error (lit "list prs " ++ repo ++ lit ": " ++ err),h)
    | (.ok (pr :: _),h) =>
      if pr.title ≠ title ∨ pr.body ≠ body then
        match h.call owner name fun r => r.edit pr.number title body with
        | (.error err,h) =>
          (.error (lit "update pr " ++ repo ++ lit "#" ++ intDecimal pr.number ++ lit ": " ++ err),h)
        | (.ok number,h) => (.ok number,h)
      else (.ok pr.number,h)
    | (.ok [],h) =>
      match h.call owner name fun r => r.create owner title branch base body with
      | (.error err,h) => (.error (lit "create pr " ++ repo ++ lit ": " ++ err),h)
      | (.ok number,h) => (.ok number,h)

def branchCommitter : BranchCommitter Host where
  upsertFile := UpsertFile
  openOrUpdatePR := OpenOrUpdatePR

def FetchFileFromRef (repo ref path : Bytes) (h : Host) : Except Err Bytes :=
  match splitRepo repo with
  | none => .error invalidRepo
  | some (owner,name) =>
    match h.read owner name fun r => r.getContents path ref with
    | .error err =>
      .error (lit "get contents " ++ repo ++ lit "@" ++ ref ++ lit ":" ++ path ++ lit ": " ++ err)
    | .ok none => .error (repo ++ lit "@" ++ ref ++ lit ":" ++ path ++ lit " is not a regular file")
    | .ok (some content) => .ok content

end GitHub

namespace Vcs.Repository
open Bytes
variable {r r' r'' : Repository} {branch : Bytes}

/-- Only what the branch points at may differ. -/
structure OnBranch (branch : Bytes) (r r' : Repository) : Prop where
  defaultBranch : r'.defaultBranch = r.defaultBranch
  pulls : r'.pulls = r.pulls
  nextNumber : r'.nextNumber = r.nextNumber
  refs : ∀ ref, ref ≠ heads branch → r'.refs.lookup ref = r.refs.lookup ref

lemma OnBranch.refl (r : Repository) : OnBranch branch r r := ⟨rfl,rfl,rfl,fun _ _ => rfl⟩

lemma OnBranch.trans (h : OnBranch branch r r') (h' : OnBranch branch r' r'') : OnBranch branch r r'' where
  defaultBranch := h'.defaultBranch.trans h.defaultBranch
  pulls := h'.pulls.trans h.pulls
  nextNumber := h'.nextNumber.trans h.nextNumber
  refs := fun ref hne => (h'.refs ref hne).trans (h.refs ref hne)

lemma onBranch_insert (r : Repository) (branch : Bytes) (tree : Tree) :
    OnBranch branch r { r with refs := r.refs.insert (heads branch) tree } :=
  ⟨rfl,rfl,rfl,fun _ hne => AList.lookup_insert_ne hne⟩

lemma onBranch_createRef (r : Repository) (branch : Bytes) (tree : Tree) :
    OnBranch branch r (r.createRef (heads branch) tree).2 := by
  rw [createRef]
  split
  · exact .refl r
  · exact onBranch_insert r branch tree

lemma onBranch_putContents (r : Repository) (path branch content : Bytes) (sha : Option Bytes) :
    OnBranch branch r (r.putContents path branch content sha).2 := by
  rw [putContents]
  split
  · exact .refl r
  · split
    · exact onBranch_insert r branch _
    · exact .refl r

lemma getRef_ok {ref : Bytes} {tree : Tree} (h : r.getRef ref = .ok tree) : r.refs.lookup ref = some tree := by
  rw [getRef] at h
  split at h
  · next found hfound => rw [hfound,Except.ok.inj h]
  · exact absurd h (by simp)

lemma createRef_ok {ref : Bytes} {tree : Tree} {u : Unit} (h : (r.createRef ref tree).1 = .ok u) :
    r.refs.lookup ref = none ∧ (r.createRef ref tree).2.refs.lookup ref = some tree := by
  rw [createRef] at h ⊢
  split at h
  · exact absurd h (by simp)
  · next hnone =>
    rw [if_neg hnone]
    exact ⟨by simpa using hnone,AList.lookup_insert r.refs⟩

lemma putContents_ok {path content : Bytes} {sha : Option Bytes} {u : Unit}
    (h : (r.putContents path branch content sha).1 = .ok u) :
    ∃ tree, r.refs.lookup (heads branch) = some tree ∧ isDir tree path = false ∧
      (r.putContents path branch content sha).2.refs.lookup (heads branch) = some (tree.insert path content) := by
  rw [putContents] at h ⊢
  split at h
  · exact absurd h (by simp)
  · next tree htree =>
    split at h
    · next hsha =>
      refine ⟨tree,htree,hsha.2,?_⟩
      rw [if_pos hsha]
      exact AList.lookup_insert r.refs
    · exact absurd h (by simp)

/-- What a branch holds before a file is put on it: its own files, or for a new one those of the default branch. -/
def Base (r : Repository) (branch : Bytes) (tree : Tree) : Prop :=
  r.refs.lookup (heads branch) = some tree ∨ r.refs.lookup (heads branch) = none ∧
    r.refs.lookup (heads (if r.defaultBranch = [] then lit "main" else r.defaultBranch)) = some tree

end Vcs.Repository

namespace GitHub
open Bytes Vcs Repository
variable {owner name repo branch base title body : Bytes} {h h' : Host}

lemma ensureBranch_spec {res : Option Err} (hc : ensureBranch owner name repo branch h = (res,h')) :
    h'.owner = h.owner ∧ h'.name = h.name ∧ OnBranch branch h.repository h'.repository ∧
      (res = none → owner = h.owner ∧ name = h.name ∧
        ∃ tree, h.repository.Base branch tree ∧ h'.repository.refs.lookup (heads branch) = some tree) := by
  have hread : ∀ {h₁ : Host} {err : Err}, HostOf.Same h h₁ → h₁.owner = h.owner ∧ h₁.name = h.name ∧
      OnBranch branch h.repository h₁.repository ∧ (some err = none → owner = h.owner ∧ name = h.name ∧
        ∃ tree, h.repository.Base branch tree ∧ h₁.repository.refs.lookup (heads branch) = some tree) :=
    fun hs => ⟨hs.owner,hs.name,hs.repository ▸ .refl _,fun hn => absurd hn (by simp)⟩
  rw [ensureBranch] at hc
  split at hc
  · next tree h₁ hget =>
    obtain ⟨rfl,rfl⟩ := Prod.mk.inj hc
    obtain ⟨hs,hok⟩ := HostOf.query_cases hget
    obtain ⟨ho,hn,href⟩ := hok tree rfl
    have hlookup := getRef_ok href
    exact ⟨hs.owner,hs.name,hs.repository ▸ .refl _,fun _ => ⟨ho,hn,tree,.inl hlookup,hs.repository ▸ hlookup⟩⟩
  · next err h₁ hget =>
    have hs₁ := (HostOf.query_cases hget).1
    split at hc
    · next err h₂ hdef =>
      obtain ⟨rfl,rfl⟩ := Prod.mk.inj hc
      exact hread (hs₁.trans (HostOf.query_cases hdef).1)
    · next defBranch h₂ hdef =>
      obtain ⟨hs₂,hok₂⟩ := HostOf.query_cases hdef
      obtain rfl : h₁.repository.defaultBranch = defBranch := Except.ok.inj (hok₂ _ rfl).2.2
      have hs₂ := hs₁.trans hs₂
      dsimp only at hc
      split at hc
      · next err h₃ hhead =>
        obtain ⟨rfl,rfl⟩ := Prod.mk.inj hc
        exact hread (hs₂.trans (HostOf.query_cases hhead).1)
      · next baseSHA h₃ hhead =>
        obtain ⟨hs₃,hok₃⟩ := HostOf.query_cases hhead
        obtain ⟨ho,hn,hbase⟩ := hok₃ baseSHA rfl
        have hs₃ := hs₂.trans hs₃
        split at hc
        · next err h₄ hcreate =>
          obtain ⟨rfl,rfl⟩ := Prod.mk.inj hc
          obtain ⟨howner,hname,hr⟩ := HostOf.call_cases hcreate
          refine ⟨howner.trans hs₃.owner,hname.trans hs₃.name,?_,fun hn => absurd hn (by simp)⟩
          rw [hs₃.repository] at hr
          obtain ⟨-,hr | hr⟩ | ⟨-,-,-,hr⟩ := hr
          · exact hr ▸ .refl _
          · exact hr ▸ onBranch_createRef _ _ _
          · exact hr ▸ onBranch_createRef _ _ _
        · next u h₄ hcreate =>
          obtain ⟨rfl,rfl⟩ := Prod.mk.inj hc
          obtain ⟨howner,hname,⟨⟨err,herr⟩,-⟩ | ⟨-,-,hres,hr⟩⟩ := HostOf.call_cases hcreate
          · exact absurd herr (by simp)
          rw [hs₃.repository] at hres hr
          obtain ⟨hnone,hnew⟩ := createRef_ok hres.symm
          refine ⟨howner.trans hs₃.owner,hname.trans hs₃.name,hr ▸ onBranch_createRef _ _ _,fun _ => ?_⟩
          refine ⟨ho.trans hs₂.owner,hn.trans hs₂.name,baseSHA,.inr ⟨hnone,?_⟩,hr ▸ hnew⟩
          rw [hs₁.repository,hs₂.repository] at hbase
          exact getRef_ok hbase

/-- A file that is put where it can be: the branch holds what it held before, but for the file. -/
lemma UpsertFile_spec {msg : Bytes} {f : FileWrite} {res : Option Err} (hc : UpsertFile repo branch msg f h = (res,h')) :
    h'.owner = h.owner ∧ h'.name = h.name ∧ OnBranch branch h.repository h'.repository ∧
      (res = none → splitRepo repo = some (h.owner,h.name) ∧ ∃ tree, h.repository.Base branch tree ∧
        isDir tree f.path = false ∧ h'.repository.refs.lookup (heads branch) = some (tree.insert f.path f.content)) := by
  rw [UpsertFile] at hc
  split at hc
  · obtain ⟨rfl,rfl⟩ := Prod.mk.inj hc
    exact ⟨rfl,rfl,.refl _,fun hn => absurd hn (by simp)⟩
  · next owner name hsplit =>
    split at hc
    · next err h₁ hensure =>
      obtain ⟨rfl,rfl⟩ := Prod.mk.inj hc
      obtain ⟨howner,hname,hon,-⟩ := ensureBranch_spec hensure
      exact ⟨howner,hname,hon,fun hn => absurd hn (by simp)⟩
    · next h₁ hensure =>
      obtain ⟨howner₁,hname₁,hon₁,hok₁⟩ := ensureBranch_spec hensure
      obtain ⟨rfl,rfl,tree,hbase,htree⟩ := hok₁ rfl
      -- whichever of the two calls puts the file, the outcome is the same
      have hput : ∀ {h₂ h₃ : Host} {sha : Option Bytes} {put : Except Err Unit}, HostOf.Same h₁ h₂ →
          (h₂.call h.owner h.name fun r => r.putContents f.path branch f.content sha) = (put,h₃) →
          h₃.owner = h.owner ∧ h₃.name = h.name ∧ OnBranch branch h.repository h₃.repository ∧
            ∀ u, put = .ok u → isDir tree f.path = false ∧
              h₃.repository.refs.lookup (heads branch) = some (tree.insert f.path f.content) := by
        intro h₂ h₃ sha put hs hcall
        obtain ⟨howner,hname,hr⟩ := HostOf.call_cases hcall
        rw [hs.repository] at hr
        refine ⟨howner.trans (hs.owner.trans howner₁),hname.trans (hs.name.trans hname₁),hon₁.trans ?_,fun u hu => ?_⟩
        · obtain ⟨-,hr | hr⟩ | ⟨-,-,-,hr⟩ := hr
          · exact hr ▸ .refl _
          · exact hr ▸ onBranch_putContents _ _ _ _ _
          · exact hr ▸ onBranch_putContents _ _ _ _ _
        · obtain ⟨⟨err,herr⟩,-⟩ | ⟨-,-,hres,hr⟩ := hr
          · exact absurd (herr.symm.trans hu) (by simp)
          · obtain ⟨tree',htree',hdir,hnew⟩ := putContents_ok (hres.symm.trans hu)
            rw [htree] at htree'
            obtain rfl := Option.some.inj htree'
            exact ⟨hdir,hr ▸ hnew⟩
      split at hc
      · next sha h₂ hget =>
        have hs := (HostOf.query_cases hget).1
        split at hc
        · next err h₃ hcall =>
          obtain ⟨rfl,rfl⟩ := Prod.mk.inj hc
          obtain ⟨howner,hname,hon,-⟩ := hput hs hcall
          exact ⟨howner,hname,hon,fun hn => absurd hn (by simp)⟩
        · next u h₃ hcall =>
          obtain ⟨rfl,rfl⟩ := Prod.mk.inj hc
          obtain ⟨howner,hname,hon,hok⟩ := hput hs hcall
          exact ⟨howner,hname,hon,fun _ => ⟨hsplit,tree,hbase,hok u rfl⟩⟩
      · next got h₂ hmiss hget =>
        have hs := (HostOf.query_cases hget).1
        split at hc
        · next err h₃ hcall =>
          obtain ⟨rfl,rfl⟩ := Prod.mk.inj hc
          obtain ⟨howner,hname,hon,-⟩ := hput hs hcall
          exact ⟨howner,hname,hon,fun hn => absurd hn (by simp)⟩
        · next u h₃ hcall =>
          obtain ⟨rfl,rfl⟩ := Prod.mk.inj hc
          obtain ⟨howner,hname,hon,hok⟩ := hput hs hcall
          exact ⟨howner,hname,hon,fun _ => ⟨hsplit,tree,hbase,hok u rfl⟩⟩

lemma OpenOrUpdatePR_spec {res : Except Err ℤ} (hc : OpenOrUpdatePR repo branch base title body h = (res,h')) :
    h'.owner = h.owner ∧ h'.name = h.name ∧
      (h'.repository = h.repository ∧ (∀ n, res = .ok n → ∃ p rest, splitRepo repo = some (h.owner,h.name) ∧
          h.repository.openPulls h.owner branch base = p :: rest ∧ p.title = title ∧ p.body = body ∧ n = p.number) ∨
        splitRepo repo = some (h.owner,h.name) ∧
          ((∃ p rest, h.repository.openPulls h.owner branch base = p :: rest ∧
            h'.repository = (h.repository.edit p.number title body).2 ∧ ∀ n, res = .ok n → n = p.number) ∨
          h.repository.openPulls h.owner branch base = [] ∧
            h'.repository = (h.repository.create h.owner title branch base body).2 ∧
              ∀ n, res = .ok n → n = h.repository.nextNumber)) := by
  rw [OpenOrUpdatePR] at hc
  split at hc
  · obtain ⟨rfl,rfl⟩ := Prod.mk.inj hc
    exact ⟨rfl,rfl,.inl ⟨rfl,fun n hn => absurd hn (by simp)⟩⟩
  · next owner name hsplit =>
    split at hc
    · next err h₁ hlist =>
      obtain ⟨rfl,rfl⟩ := Prod.mk.inj hc
      have hs := (HostOf.query_cases hlist).1
      exact ⟨hs.owner,hs.name,.inl ⟨hs.repository,fun n hn => absurd hn (by simp)⟩⟩
    · next pr rest h₁ hlist =>
      obtain ⟨hs,hok⟩ := HostOf.query_cases hlist
      obtain ⟨rfl,rfl,htake⟩ := hok _ rfl
      obtain ⟨more,hopen⟩ : ∃ more, h.repository.openPulls h.owner branch base = pr :: more := by
        have htake := Except.ok.inj htake
        cases hpulls : h.repository.openPulls h.owner branch base with
        | nil => simp [hpulls] at htake
        | cons p more =>
          rw [hpulls,List.take_succ_cons] at htake
          exact ⟨more,by rw [(List.cons.inj htake).1]⟩
      split at hc
      · have hedit : ∀ {res' : Except Err ℤ} {h₂ : Host},
            (h₁.call h.owner h.name fun r => r.edit pr.number title body) = (res',h₂) →
            h₂.owner = h.owner ∧ h₂.name = h.name ∧ (h₂.repository = h.repository ∧ (∀ n, res' ≠ .ok n) ∨
              h₂.repository = (h.repository.edit pr.number title body).2 ∧ ∀ n, res' = .ok n → n = pr.number) := by
          intro res' h₂ hcall
          obtain ⟨howner,hname,hr⟩ := HostOf.call_cases hcall
          rw [hs.repository] at hr
          refine ⟨howner.trans hs.owner,hname.trans hs.name,?_⟩
          obtain ⟨⟨err,rfl⟩,hr | hr⟩ | ⟨-,-,rfl,hr⟩ := hr
          · exact .inl ⟨hr,by simp⟩
          · exact .inr ⟨hr,by simp⟩
          · refine .inr ⟨hr,fun n hn => ?_⟩
            rw [Repository.edit] at hn
            split at hn
            · exact (Except.ok.inj hn).symm
            · exact absurd hn (by simp)
        split at hc
        · next err h₂ hcall =>
          obtain ⟨rfl,rfl⟩ := Prod.mk.inj hc
          obtain ⟨howner,hname,⟨hr,-⟩ | ⟨hr,-⟩⟩ := hedit hcall
          · exact ⟨howner,hname,.inl ⟨hr,fun n hn => absurd hn (by simp)⟩⟩
          · exact ⟨howner,hname,.inr ⟨hsplit,.inl ⟨pr,more,hopen,hr,fun n hn => absurd hn (by simp)⟩⟩⟩
        · next number h₂ hcall =>
          obtain ⟨rfl,rfl⟩ := Prod.mk.inj hc
          obtain ⟨howner,hname,⟨-,hne⟩ | ⟨hr,hn⟩⟩ := hedit hcall
          · exact absurd rfl (hne number)
          · exact ⟨howner,hname,.inr ⟨hsplit,.inl ⟨pr,more,hopen,hr,hn⟩⟩⟩
      · next hsame =>
        obtain ⟨rfl,rfl⟩ := Prod.mk.inj hc
        obtain ⟨htitle,hbody⟩ := not_or.mp hsame
        refine ⟨hs.owner,hs.name,.inl ⟨hs.repository,fun n hn => ?_⟩⟩
        exact ⟨pr,more,hsplit,hopen,not_not.mp htitle,not_not.mp hbody,(Except.ok.inj hn).symm⟩
    · next h₁ hlist =>
      obtain ⟨hs,hok⟩ := HostOf.query_cases hlist
      obtain ⟨rfl,rfl,htake⟩ := hok _ rfl
      have hopen : h.repository.openPulls h.owner branch base = [] := by simpa using Except.ok.inj htake
      split at hc
      · next err h₂ hcall =>
        obtain ⟨rfl,rfl⟩ := Prod.mk.inj hc
        obtain ⟨howner,hname,hr⟩ := HostOf.call_cases hcall
        rw [hs.repository] at hr
        refine ⟨howner.trans hs.owner,hname.trans hs.name,?_⟩
        obtain ⟨-,hr | hr⟩ | ⟨-,-,-,hr⟩ := hr
        · exact .inl ⟨hr,fun n hn => absurd hn (by simp)⟩
        · exact .inr ⟨hsplit,.inr ⟨hopen,hr,fun n hn => absurd hn (by simp)⟩⟩
        · exact .inr ⟨hsplit,.inr ⟨hopen,hr,fun n hn => absurd hn (by simp)⟩⟩
      · next number h₂ hcall =>
        obtain ⟨rfl,rfl⟩ := Prod.mk.inj hc
        obtain ⟨howner,hname,⟨⟨err,herr⟩,-⟩ | ⟨-,-,hres,hr⟩⟩ := HostOf.call_cases hcall
        · exact absurd herr (by simp)
        rw [hs.repository] at hres hr
        refine ⟨howner.trans hs.owner,hname.trans hs.name,.inr ⟨hsplit,.inr ⟨hopen,hr,fun n hn => ?_⟩⟩⟩
        exact (Except.ok.inj hn).symm.trans (Except.ok.inj hres)

end GitHub

namespace Vcs.Repository
open Bytes
variable {r : Repository} {owner head base title body : Bytes} {n : ℤ}

/-- The pull requests can be told by their numbers, and no branch has two open ones to the same other branch. -/
structure Sound (r : Repository) : Prop where
  numbers : (r.pulls.map Pull.number).Nodup
  fresh : ∀ p ∈ r.pulls, p.number < r.nextNumber
  alone : ∀ owner head base, (r.openPulls owner head base).length ≤ 1

lemma openPulls_congr {r' : Repository} (h : r'.pulls = r.pulls) (owner head base : Bytes) :
    r'.openPulls owner head base = r.openPulls owner head base := by
  rw [openPulls,openPulls,h]

/-- Nothing depends on what the refs point at. -/
lemma Sound.congr {r' : Repository} (hr : r.Sound) (hpulls : r'.pulls = r.pulls)
    (hnext : r'.nextNumber = r.nextNumber) : r'.Sound where
  numbers := hpulls ▸ hr.numbers
  fresh := by
    rw [hpulls,hnext]
    exact hr.fresh
  alone := fun owner head base => openPulls_congr hpulls owner head base ▸ hr.alone owner head base

/-- A change of the pull requests that keeps where they come from and go to, and opens none. -/
lemma Sound.map (hr : r.Sound) {f : Pull → Pull} (hnumber : ∀ p, (f p).number = p.number)
    (hends : ∀ p, (f p).headOwner = p.headOwner ∧ (f p).head = p.head ∧ (f p).base = p.base)
    (hopen : ∀ p, (f p).isOpen = true → p.isOpen = true) : Sound { r with pulls := r.pulls.map f } where
  numbers := by
    rw [List.map_map]
    exact (List.map_congr_left fun p _ => hnumber p).symm ▸ hr.numbers
  fresh := by
    intro p hp
    obtain ⟨q,hq,rfl⟩ := List.mem_map.mp hp
    rw [hnumber]
    exact hr.fresh q hq
  alone := by
    intro owner head base
    refine le_trans ?_ (hr.alone owner head base)
    rw [openPulls,openPulls,List.filter_map,List.length_map]
    refine (List.Sublist.length_le ?_)
    refine List.monotone_filter_right _ fun p hp => ?_
    obtain ⟨howner,hhead,hbase⟩ := hends p
    simp only [Function.comp_apply,howner,hhead,hbase,Bool.and_eq_true] at hp ⊢
    exact ⟨⟨⟨hopen p hp.1.1.1,hp.1.1.2⟩,hp.1.2⟩,hp.2⟩

lemma edit_cases (r : Repository) (n : ℤ) (title body : Bytes) : (r.edit n title body).2 = r ∨
    (r.edit n title body).2 = { r with
      pulls := r.pulls.map fun p => if p.number = n then { p with title := title, body := body } else p } := by
  rw [edit]
  split
  · exact .inr rfl
  · exact .inl rfl

lemma Sound.edit (hr : r.Sound) (n : ℤ) (title body : Bytes) : (r.edit n title body).2.Sound := by
  obtain h | h := edit_cases r n title body <;> rw [h]
  · exact hr
  · exact hr.map (fun p => by split <;> rfl) (fun p => by split <;> exact ⟨rfl,rfl,rfl⟩) fun p hp => by
      split at hp <;> exact hp

lemma openPulls_cons (p : Pull) (ps : List Pull) (next : ℤ) (owner' head' base' : Bytes) :
    openPulls { r with pulls := p :: ps, nextNumber := next } owner' head' base' =
      (if p.isOpen ∧ p.headOwner = owner' ∧ p.head = head' ∧ p.base = base' then [p] else []) ++
        openPulls { r with pulls := ps } owner' head' base' := by
  rw [openPulls,openPulls,List.filter_cons]
  simp only [Bool.and_eq_true,decide_eq_true_eq,and_assoc]
  split <;> rfl

lemma Sound.create (hr : r.Sound) (h : r.openPulls owner head base = []) :
    (r.create owner title head base body).2.Sound where
  numbers := by
    refine List.nodup_cons.mpr ⟨fun hmem => ?_,hr.numbers⟩
    obtain ⟨p,hp,hn⟩ := List.mem_map.mp hmem
    have hlt := hr.fresh p hp
    rw [hn] at hlt
    exact absurd hlt (Int.lt_irrefl _)
  fresh := by
    intro p hp
    obtain rfl | hp := List.mem_cons.mp hp
    · exact Int.lt_succ _
    · have hlt := hr.fresh p hp
      change p.number < r.nextNumber+1
      omega
  alone := by
    intro owner' head' base'
    rw [Repository.create,openPulls_cons]
    split
    · next heq =>
      obtain ⟨-,rfl,rfl,rfl⟩ := heq
      exact (congrArg List.length (congrArg _ h)).le
    · exact hr.alone owner' head' base'

/-- A pull request that has been found open, with the numbers distinct, is the only one of its number. -/
lemma Sound.eq_of_number (hr : r.Sound) {p q : Pull} (hp : p ∈ r.pulls) (hq : q ∈ r.pulls) (h : p.number = q.number) :
    p = q := List.inj_on_of_nodup_map hr.numbers hp hq h

end Vcs.Repository

namespace GitHub
open Bytes Vcs Repository
variable {repo branch base title body : Bytes} {h h' : Host}

/-- Whatever befalls the calls, there is still at most one open pull request from a branch to another, and no other
one is touched; when the answer is its number, it has the title and the body. -/
lemma OpenOrUpdatePR_sound {res : Except Err ℤ} (hr : h.repository.Sound)
    (hc : OpenOrUpdatePR repo branch base title body h = (res,h')) :
    h'.repository.Sound ∧ h'.repository.refs = h.repository.refs ∧
      h'.repository.defaultBranch = h.repository.defaultBranch ∧
      (∀ owner head base', (owner,head,base') ≠ (h.owner,branch,base) →
        h'.repository.openPulls owner head base' = h.repository.openPulls owner head base') ∧
      ∀ n, res = .ok n → splitRepo repo = some (h.owner,h.name) ∧ ∃ p, p.title = title ∧ p.body = body ∧ p.number = n ∧
        h'.repository.openPulls h.owner branch base = [p] ∧
        ∀ q ∈ h.repository.openPulls h.owner branch base, q.number = n := by
  have hone : ∀ {p : Pull} {rest : List Pull}, h.repository.openPulls h.owner branch base = p :: rest → rest = [] := by
    intro p rest hopen
    have hlen := hr.alone h.owner branch base
    rw [hopen,List.length_cons] at hlen
    exact List.length_eq_zero_iff.mp (by omega)
  obtain ⟨-,-,⟨hrepo,hok⟩ | ⟨hsplit,⟨p,rest,hopen,hrepo,hok⟩ | ⟨hopen,hrepo,hok⟩⟩⟩ := OpenOrUpdatePR_spec hc
  · rw [hrepo]
    refine ⟨hr,rfl,rfl,fun _ _ _ _ => rfl,fun n hn => ?_⟩
    obtain ⟨p,rest,hsplit,hopen,htitle,hbody,rfl⟩ := hok n hn
    obtain rfl := hone hopen
    refine ⟨hsplit,p,htitle,hbody,rfl,hopen,fun q hq => ?_⟩
    rw [hopen] at hq
    rw [List.mem_singleton.mp hq]
  · obtain rfl := hone hopen
    have hp : p ∈ h.repository.openPulls h.owner branch base := hopen ▸ List.mem_singleton_self p
    obtain ⟨hmem,hends⟩ := List.mem_filter.mp hp
    have hedit : (h.repository.edit p.number title body).2 = { h.repository with
        pulls := h.repository.pulls.map fun q =>
          if q.number = p.number then { q with title := title, body := body } else q } := by
      rw [Repository.edit,if_pos (List.mem_map_of_mem hmem)]
    -- the others have other numbers
    have hopens : ∀ owner head base', h'.repository.openPulls owner head base' =
        (h.repository.openPulls owner head base').map fun q =>
          if q.number = p.number then { q with title := title, body := body } else q := by
      intro owner head base'
      rw [hrepo,hedit,openPulls,openPulls,List.filter_map]
      congr 1
      refine List.filter_congr fun q _ => ?_
      rw [Function.comp_apply]
      split <;> rfl
    refine ⟨hrepo ▸ hr.edit _ _ _,by rw [hrepo,hedit],by rw [hrepo,hedit],fun owner head base' hne => ?_,fun n hn => ?_⟩
    · rw [hopens]
      refine (List.map_congr_left fun q hq => ?_).trans (List.map_id _)
      refine if_neg fun hnum => hne ?_
      obtain ⟨hqmem,hqends⟩ := List.mem_filter.mp hq
      obtain rfl := hr.eq_of_number hqmem hmem hnum
      simp only [Bool.and_eq_true,decide_eq_true_eq] at hends hqends
      rw [← hqends.1.1.2,← hqends.1.2,← hqends.2,hends.1.1.2,hends.1.2,hends.2]
    · obtain rfl := hok n hn
      refine ⟨hsplit,{ p with title := title, body := body },rfl,rfl,rfl,?_,fun q hq => ?_⟩
      · rw [hopens,hopen,List.map_singleton,if_pos rfl]
      · rw [hopen] at hq
        rw [List.mem_singleton.mp hq]
  · rw [hrepo]
    refine ⟨hr.create hopen,rfl,rfl,fun owner head base' hne => ?_,fun n hn => ?_⟩
    · rw [Repository.create,openPulls_cons]
      refine (congrArg (· ++ _) (if_neg fun heq => hne ?_)).trans (List.nil_append _)
      obtain ⟨-,rfl,rfl,rfl⟩ := heq
      rfl
    · refine ⟨hsplit,⟨h.repository.nextNumber,h.owner,branch,base,title,body,true⟩,rfl,rfl,(hok n hn).symm,?_,?_⟩
      · rw [Repository.create,openPulls_cons,if_pos ⟨rfl,rfl,rfl,rfl⟩]
        exact congrArg _ hopen
      · rw [hopen]
        exact fun q hq => absurd hq (List.not_mem_nil)

/-- When nothing goes wrong, a file that is on the branch is replaced. -/
lemma UpsertFile_over (msg : Bytes) {old : Bytes} {f : FileWrite} {r : Repository} {tree : Tree} (readFault : Option Err)
    (hsplit : splitRepo repo = some (h.owner,h.name)) (htree : r.refs.lookup (heads branch) = some tree)
    (hfile : tree.lookup f.path = some old) (hdir : isDir tree f.path = false) :
    UpsertFile repo branch msg f ((h.clear r).facing [] readFault) = (none,
      (h.clear { r with refs := r.refs.insert (heads branch) (tree.insert f.path f.content) }).facing [] readFault) := by
  have href : r.getRef (heads branch) = .ok tree := by rw [getRef,htree]
  have hget : r.getContents f.path branch = .ok (some old) := by
    rw [getContents,resolve,htree]
    simp only [Option.some_or,hfile]
  have hput : r.putContents f.path branch f.content (some old) =
      (.ok (),{ r with refs := r.refs.insert (heads branch) (tree.insert f.path f.content) }) := by
    rw [putContents,htree]
    simp only [hfile,hdir,and_self,if_true]
  rw [UpsertFile,hsplit]
  simp only [ensureBranch,HostOf.query_calm,href,hget,HostOf.call_calm,hput]

lemma OpenOrUpdatePR_again {r : Repository} {p : Pull} (readFault : Option Err)
    (hsplit : splitRepo repo = some (h.owner,h.name)) (hopen : r.openPulls h.owner branch base = [p])
    (htitle : p.title = title) (hbody : p.body = body) :
    OpenOrUpdatePR repo branch base title body ((h.clear r).facing [] readFault) =
      (.ok p.number,(h.clear r).facing [] readFault) := by
  rw [OpenOrUpdatePR,hsplit]
  simp [HostOf.query_calm,hopen,htitle,hbody]

end GitHub
