import Cadoo.Analysis.Workspace
import Cadoo.Lib.GoMap
import Cadoo.Lib.Sorted
import Cadoo.Lib.Workers
import Cadoo.Vcs.Types

/-! The static analysis before a tool runs: the changed files are sorted by their extensions, and each linter of an
extension is run on them, all at once, over a workspace that is taken away again. -/
namespace Analysis
open Bytes Vcs FileTree GoPath
open Workspace hiding Err

structure Finding where
  linter : Bytes
  rule : Bytes
  severity : Bytes
  file : Bytes
  lineStart : ℤ
  lineEnd : ℤ
  colStart : ℤ
  message : Bytes
  deriving DecidableEq

structure Linter where
  name : Bytes
  languages : List Bytes
  deriving DecidableEq

structure Registry where
  byName : GoMap Bytes Linter
  byExt : GoMap Bytes (List Linter)

def NewRegistry : Registry := ⟨∅,∅⟩

def Registry.Register (r : Registry) (l : Linter) : Registry where
  byName := r.byName.insert l.name l
  byExt := l.languages.foldl (fun m ext => m.insert ext (m.get ext ++ [l])) r.byExt

def Registry.ForExt (r : Registry) (ext : Bytes) : List Linter := r.byExt.get ext

def golangci : Linter := ⟨lit "golangci-lint",[lit ".go"]⟩
def ruff : Linter := ⟨lit "ruff",[lit ".py"]⟩
def eslint : Linter := ⟨lit "eslint",[lit ".js",lit ".jsx",lit ".mjs",lit ".cjs",lit ".ts",lit ".tsx"]⟩
def semgrep : Linter := ⟨lit "semgrep",[lit ".py",lit ".js",lit ".jsx",lit ".ts",lit ".tsx",lit ".go",lit ".rb",
  lit ".java",lit ".php",lit ".c",lit ".cpp",lit ".rs"]⟩
def shellcheck : Linter := ⟨lit "shellcheck",[lit ".sh",lit ".bash"]⟩

/-- The linters in the order they are registered. -/
def defaultLinters : List Linter := [golangci,ruff,eslint,semgrep,shellcheck]

def registered (ls : List Linter) : Registry := ls.foldl Registry.Register NewRegistry

/-- `filepath.Ext`: the last dot of the last element and what follows. -/
def Ext (path : Bytes) : Bytes :=
  let element := path.reverse.takeWhile (· != 47)
  if 46 ∈ element then (element.takeWhile (· != 46) ++ [46]).reverse else []

/-- A changed file with an extension, of text that is still there. -/
def lintable (f : FileChange) : Bool := !(f.isBinary || f.status = lit "removed") && Ext f.path ≠ []

def byExt (files : List FileChange) : GoMap Bytes (List Bytes) :=
  (files.filter lintable).foldl (fun m f => m.insert (Ext f.path) (m.get (Ext f.path) ++ [f.path])) ∅

/-- A goroutine for each linter of each extension, in the order the map is gone through. -/
def tasks (r : Registry) (order : List (Bytes × List Bytes)) : List (Linter × List Bytes) :=
  order.flatMap fun e => (r.ForExt e.1).map fun l => (l,e.2)

abbrev Answer := Except Err (List Finding)

def found : Answer → List Finding
  | .ok fs => fs
  | .error _ => []

/-- What `Run` of a linter answers on some files of a workspace, in its container. -/
abbrev Sandbox := Linter → (dir : Bytes) → (workspace : Disk) → (files : List Bytes) → Answer

section Lint
variable (sandbox : Sandbox) (dir : Bytes) (workspace : Disk)

/-- What a goroutine finds: its own linter is run on its own files. -/
def findings (task : Linter × List Bytes) : List Finding := found (sandbox task.1 dir workspace task.2)

/-- The goroutines in the order they end in; what is found is added under a lock. -/
def lint (ts : List (Linter × List Bytes)) (ended : List ℕ) : Option (List Finding) :=
  match Steps.run (Workers.step fun i (_ : Unit) all => all ++ (ts[i]?.elim [] (findings sandbox dir workspace)))
      (Workers.start ts.length []) (ended.map fun i => (i,())) with
  | some p => if p.running = [] then some p.shared else none
  | none => none

end Lint

/-- No layer, no archive or no head: no findings. The workspace is mounted for reading only. -/
def runLinters (sandbox : Sandbox) (layer : Option Registry) (fetch : Option (Except Err (Except Err Archive)))
    (mkdtemp : Except Err Bytes) (pr : PullRequest) (order : List (Bytes × List Bytes)) (ended : List ℕ)
    (t : Disk) : Option (List Finding × Disk) :=
  match layer,fetch with
  | some r,some archive =>
    if pr.headSHA = [] then some ([],t)
    else
      match Open archive mkdtemp pr.repoFullName pr.headSHA t with
      | (.error _,t) => some ([],t)
      | (.ok dir,t) => (lint sandbox dir t (tasks r order) ended).map fun out => (out,t.removeAll (elements dir))
  | _,_ => some ([],t)

example : Ext (lit "docs/a.tar.gz") = lit ".gz" ∧ Ext (lit "v1.2/Makefile") = [] ∧ Ext (lit ".bashrc") = lit ".bashrc" := by
  decide

section Registered
variable {ls : List Linter}

/-- The linters of an extension, each as often as it names it. -/
def forExt (ls : List Linter) (ext : Bytes) : List Linter :=
  ls.flatMap fun l => (l.languages.filter fun x => x = ext).map fun _ => l

lemma ForExt_Register (r : Registry) (l : Linter) (ext : Bytes) :
    (r.Register l).ForExt ext = r.ForExt ext ++ (l.languages.filter fun x => x = ext).map fun _ => l :=
  GoMap.get_foldl_append (k := ext) (fun x : Bytes => x) (fun _ => l) l.languages r.byExt

lemma ForExt_registered (ext : Bytes) : (registered ls).ForExt ext = forExt ls ext := by
  suffices hall : ∀ r : Registry, (ls.foldl Registry.Register r).ForExt ext = r.ForExt ext ++ forExt ls ext from
    hall NewRegistry
  induction ls with
  | nil => exact fun r => (List.append_nil _).symm
  | cons l ls ih =>
    intro r
    rw [List.foldl_cons,ih,ForExt_Register,forExt,forExt,List.flatMap_cons,List.append_assoc]

end Registered

section Wanted
variable {ls : List Linter} {files : List FileChange} {order : List (Bytes × List Bytes)}

/-- The changed files to be linted that have an extension. -/
def pathsOf (files : List FileChange) (ext : Bytes) : List Bytes :=
  ((files.filter lintable).filter fun f => Ext f.path = ext).map FileChange.path

/-- What is to be run: for each extension that comes up, each of its linters, once for each time it names the
extension, on all the files that have it. -/
def wanted (ls : List Linter) (files : List FileChange) : List (Linter × List Bytes) :=
  (((files.filter lintable).map fun f => Ext f.path).dedup).flatMap fun ext =>
    (forExt ls ext).map fun l => (l,pathsOf files ext)

lemma byExt_get (ext : Bytes) : (byExt files).get ext = pathsOf files ext :=
  GoMap.get_foldl_append (k := ext) (fun f : FileChange => Ext f.path) FileChange.path (files.filter lintable) ∅

lemma mem_byExt {ext : Bytes} : ext ∈ byExt files ↔ ext ∈ (files.filter lintable).map fun f => Ext f.path := by
  suffices hall : ∀ (fs : List FileChange) (m : GoMap Bytes (List Bytes)),
      ext ∈ fs.foldl (fun m f => m.insert (Ext f.path) (m.get (Ext f.path) ++ [f.path])) m ↔
        ext ∈ (fs.map fun f => Ext f.path) ∨ ext ∈ m by
    refine (hall (files.filter lintable) ∅).trans (or_iff_left ?_)
    exact AList.notMem_empty ext
  intro fs
  induction fs with
  | nil => simp
  | cons f fs ih =>
    intro m
    rw [List.foldl_cons,ih,AList.mem_insert,List.map_cons,List.mem_cons,or_left_comm,or_assoc]

/-- Whatever the order of the extensions, what is run is what is to be run. -/
lemma tasks_perm (h : order.Perm (byExt files).toList) : (tasks (registered ls) order).Perm (wanted ls files) := by
  have hpaths : ∀ e ∈ order, e.2 = pathsOf files e.1 := by
    intro e he
    have hlookup := GoMap.mem_toList.mp (h.mem_iff.mp he)
    rw [← byExt_get,GoMap.get,hlookup]
    rfl
  have hkeys : (order.map Prod.fst).Perm ((files.filter lintable).map fun f => Ext f.path).dedup := by
    have hmap : ((byExt files).toList.map Prod.fst) = (byExt files).keys := by
      rw [GoMap.toList,List.map_map]
      rfl
    refine (h.map Prod.fst).trans ((List.perm_ext_iff_of_nodup ?_ (List.nodup_dedup _)).mpr fun ext => ?_)
    · rw [hmap]
      exact (byExt files).keys_nodup
    · rw [hmap,← AList.mem_keys,mem_byExt,List.mem_dedup]
  have htasks : tasks (registered ls) order =
      (order.map Prod.fst).flatMap fun ext => (forExt ls ext).map fun l => (l,pathsOf files ext) := by
    rw [tasks,List.flatMap_map]
    refine List.flatMap_congr fun e he => ?_
    rw [ForExt_registered,hpaths e he]
  rw [htasks,wanted]
  exact hkeys.flatMap_right _

end Wanted

section Run
variable {ls : List Linter} {files : List FileChange} {order : List (Bytes × List Bytes)} {ended : List ℕ}
variable {fetch : Option (Except Err (Except Err Archive))} {dir : Bytes} {pr : PullRequest} {t t' : Disk}
variable {out : List Finding} {sandbox : Sandbox}

/-- Each linter is run once, and what all of them find comes together. -/
lemma lint_spec {ts : List (Linter × List Bytes)} (h : lint sandbox dir t ts ended = some out) :
    out.Perm (ts.flatMap (findings sandbox dir t)) := by
  rw [lint] at h
  split at h
  · next p hrun =>
    split at h
    · next hdone =>
      obtain rfl := Option.some.inj h
      have honce := Workers.ended_once hrun hdone
      rw [List.map_map] at honce
      have hended : ended.Perm (List.range ts.length) := by simpa [Function.comp_def] using honce
      have hall : (List.range ts.length).flatMap (fun i => ts[i]?.elim [] (findings sandbox dir t)) =
          ts.flatMap (findings sandbox dir t) := by
        rw [← List.flatMap_map (f := fun i => ts[i]?) (g := fun task => task.elim [] (findings sandbox dir t)),
          Workers.range_getElem?,List.flatMap_map]
        rfl
      rw [Workers.appended_eq hrun,List.flatMap_map,← hall]
      exact hended.flatMap_right _
    · cases h
  · cases h

/-- The run ends once the linters have. -/
lemma runLinters_ends {r : Registry} {mkdtemp : Except Err Bytes}
    (h : ∀ dir t, lint sandbox dir t (tasks r order) ended ≠ none) :
    ∃ out t', runLinters sandbox (some r) fetch mkdtemp pr order ended t = some (out,t') := by
  cases fetch with
  | none => exact ⟨_,_,rfl⟩
  | some archive =>
    rw [runLinters]
    split
    · exact ⟨_,_,rfl⟩
    · generalize Open archive mkdtemp pr.repoFullName pr.headSHA t = res
      obtain ⟨opened,t₁⟩ := res
      cases opened with
      | error err => exact ⟨_,_,rfl⟩
      | ok dir =>
        obtain ⟨out,hout⟩ := Option.ne_none_iff_exists'.mp (h dir t₁)
        exact ⟨out,_,congrArg (Option.map _) hout⟩

/-- The workspace of the head can be opened, and this is what it is. -/
def Opens (fetch : Option (Except Err (Except Err Archive))) (dir : Bytes) (pr : PullRequest) (t workspace : Disk) :
    Prop :=
  ∃ archive, fetch = some archive ∧ pr.headSHA ≠ [] ∧
    Open archive (.ok dir) pr.repoFullName pr.headSHA t = (.ok dir,workspace)

section Example

def exampleFiles : List FileChange :=
  [{ path := lit "main.go" },{ path := lit "Makefile" },{ path := lit "old.py", status := lit "removed" }]

def exampleFindings : List Finding :=
  [⟨lit "semgrep",lit "eqeq",lit "error",lit "main.go",1,1,1,lit "useless comparison"⟩]

def exampleHead : PullRequest := { repoFullName := lit "o/r", number := 7, headSHA := lit "c0" }

/-- One of the two linters for the file finds something, the other one fails. -/
def exampleSandbox : Sandbox := fun l _ _ _ => if l = semgrep then .ok exampleFindings else .error (lit "timeout")

end Example

end Run

end Analysis
