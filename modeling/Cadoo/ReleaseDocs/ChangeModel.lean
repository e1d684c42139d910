import Mathlib.Data.List.Sort
import Cadoo.Lib.Utf8
import Cadoo.ReleaseDocs.Types

/-! The size of a release and its changes grouped into titled sections. The semantic-version library is a
parameter. -/
namespace ReleaseDocs
open Bytes Utf8 Vcs

/-- The functions asked of the semantic-version library. -/
structure Semver where
  isValid : Bytes → Bool
  canonical : Bytes → Bytes
  major : Bytes → Bytes
  majorMinor : Bytes → Bytes

def normalizeSemver (v : Bytes) : Bytes :=
  if v = [] then [] else if hasPrefix v (lit "v") then v else lit "v" ++ v

def ComputeBump (V : Semver) (fromRef toRef : Bytes) : SemverBump :=
  let a := normalizeSemver fromRef
  let b := normalizeSemver toRef
  if a = [] ∨ a = lit "v" then
    if b ≠ [] ∧ V.isValid b then .major else .none
  else if V.isValid b = false then .none
  else if V.isValid a = false then .major
  else if V.canonical a = V.canonical b then .none
  else if V.major a ≠ V.major b then .major
  else if V.majorMinor a ≠ V.majorMinor b then .minor
  else .patch

def defaultSections : List Bytes :=
  [lit "Breaking Changes",lit "Features",lit "Bug Fixes",lit "Performance",lit "Other"]

/-- The first line of a commit message. -/
def commitSubject (msg : Bytes) : Bytes :=
  trimSpace (match cut msg [newline] with
    | some (subject,_) => subject
    | none => msg)

/-- The section of a commit by its conventional prefix, empty for none. -/
def classifyCommit (msg : Bytes) : Bytes :=
  let breaking := match cut msg [newline] with
    | some (_,body) => contains body (lit "BREAKING CHANGE:")
    | none => false
  let subject := commitSubject msg
  if breaking then lit "Breaking Changes"
  else if hasPrefix subject (lit "feat!:") || hasPrefix subject (lit "fix!:") then
    lit "Breaking Changes"
  else if hasPrefix subject (lit "feat:") then lit "Features"
  else if hasPrefix subject (lit "fix:") then lit "Bug Fixes"
  else if hasPrefix subject (lit "perf:") then lit "Performance"
  else []

def classifyByLabels (labelMap : GoMap Bytes Bytes) (labels : List Bytes) : Bytes :=
  (labels.findSome? fun l => AList.lookup l labelMap).getD []

def fallbackSection (canonical : List Bytes) : Bytes :=
  if lit "Other" ∈ canonical then lit "Other" else canonical.getLastD []

def isKnownSection (posOf : GoMap Bytes ℕ) (sec : Bytes) : Bool :=
  sec ≠ [] && (AList.lookup sec posOf).isSome

/-- One change put under its section, or under the fallback. -/
def addEntry (canonical : List Bytes) (posOf : GoMap Bytes ℕ) (sec : Bytes) (e : ChangeEntry)
    (m : GoMap Bytes (List ChangeEntry)) : GoMap Bytes (List ChangeEntry) :=
  let sec := if isKnownSection posOf sec then sec else fallbackSection canonical
  if sec = [] then m else m.insert sec (m.get sec ++ [e])

def buildConventionalGroupedEntries (canonical : List Bytes) (posOf : GoMap Bytes ℕ)
    (commits : List Commit) : GoMap Bytes (List ChangeEntry) :=
  commits.foldl (fun m c => addEntry canonical posOf (classifyCommit c.message)
    { title := commitSubject c.message, author := c.author, sha := c.sha } m) ∅

def buildLabelGroupedEntries (canonical : List Bytes) (posOf : GoMap Bytes ℕ)
    (labelMap : GoMap Bytes Bytes) (prs : List MergedPR) : GoMap Bytes (List ChangeEntry) :=
  prs.foldl (fun m pr => addEntry canonical posOf (classifyByLabels labelMap pr.labels)
    ⟨pr.title,pr.author,pr.mergeSHA,pr.number⟩ m) ∅

def canonicalPos (posOf : GoMap Bytes ℕ) (title : Bytes) : ℕ :=
  (AList.lookup title posOf).getD (posOf.keys.length + 1)

/-- Changes in sections of canonical order; `llm` and unknown sources group conventionally. -/
def BuildGroupedModel (commits : List Commit) (prs : List MergedPR) (cfg : Config) : GroupedModel :=
  let canonical := if cfg.grouping.sections = [] then defaultSections else cfg.grouping.sections
  let posOf := GoMap.ofEntries canonical.zipIdx
  let entries := if cfg.grouping.source = lit "labels" then
      buildLabelGroupedEntries canonical posOf cfg.grouping.labels prs
    else buildConventionalGroupedEntries canonical posOf commits
  let sections := canonical.filterMap fun title =>
    match entries.get title with
    | [] => none
    | es => some ⟨title,es⟩
  sections.insertionSort fun a b => ¬ canonicalPos posOf b.title < canonicalPos posOf a.title

end ReleaseDocs
