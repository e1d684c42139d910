import Cadoo.Lib.Decimal
import Cadoo.Lib.GoMap
import Cadoo.Lib.Utf8
import Cadoo.Vcs.Types

/-! The GitLab adapter: one discussion for each inline comment, anchored to a line of the diff, or a
plain note when the line is outside of it. -/
namespace GitLab
open Bytes Utf8 Vcs

def formatSeverity : Severity → Bytes := severityPrefix

structure DiffRefs where
  baseSha : Bytes
  startSha : Bytes
  headSha : Bytes
  deriving DecidableEq

structure MergeRequestDiff where
  newPath : Bytes
  oldPath : Bytes
  diff : Bytes
  deriving DecidableEq

structure PositionOptions where
  baseSHA : Bytes
  startSHA : Bytes
  headSHA : Bytes
  positionType : Bytes
  newPath : Bytes
  oldPath : Bytes
  newLine : Option ℤ := none
  oldLine : Option ℤ := none
  deriving DecidableEq

/-- A line of the diff a comment can be anchored to; a context line needs both numbers. -/
structure DiffAnchor where
  newPath : Bytes
  oldPath : Bytes
  newLine : ℤ
  oldLine : ℤ := 0
  context : Bool := false
  deriving DecidableEq

abbrev DiffIndex := GoMap Bytes (GoMap ℤ DiffAnchor)

def lookup (idx : DiffIndex) (file : Bytes) (newLine : ℤ) : Option DiffAnchor :=
  if file = [] ∨ newLine ≤ 0 then none
  else (AList.lookup file idx).bind fun lines => AList.lookup newLine lines

def digits (s : Bytes) : Option ℕ :=
  if s ≠ [] ∧ s.all fun b => 48 ≤ b && b ≤ 57 then
    some (s.foldl (fun n b => 10*n + (b.toNat-48)) 0)
  else none

/-- `strconv.Atoi`. -/
def atoi (s : Bytes) : Option ℤ :=
  let v : Option ℤ :=
    match s with
    | 43 :: t => (digits t).map fun n => n
    | 45 :: t => (digits t).map fun n => -n
    | t => (digits t).map fun n => n
  v.filter fun n => -9223372036854775808 ≤ n && n ≤ 9223372036854775807

lemma digits_natDecimal (n : ℕ) : digits (natDecimal n) = some n := by
  have hall : (natDecimal n).all (fun b => 48 ≤ b && b ≤ 57) = true :=
    List.all_eq_true.mpr fun b hb => isDecimal_of_mem_natDecimal hb
  rw [digits,if_pos ⟨natDecimal_ne_nil n,hall⟩]
  exact congrArg some (digitsValue_natDecimal n)

/-- A printed number that fits a machine integer is read back. -/
lemma atoi_natDecimal {n : ℕ} (h : n < 9223372036854775808) : atoi (natDecimal n) = some (n : ℤ) := by
  obtain ⟨d,ds,hd⟩ := List.exists_cons_of_ne_nil (natDecimal_ne_nil n)
  have hdec := isDecimal_of_mem_natDecimal (n := n) (b := d) (by simp [hd])
  have hdigits := digits_natDecimal n
  rw [hd] at hdigits ⊢
  have hplus : d ≠ 43 := by
    rintro rfl
    exact absurd hdec (by decide)
  have hminus : d ≠ 45 := by
    rintro rfl
    exact absurd hdec (by decide)
  rw [atoi]
  · rw [hdigits]
    change Option.filter _ (some (n : ℤ)) = _
    rw [Option.filter_some,if_pos]
    simp only [Bool.and_eq_true,decide_eq_true_eq]
    omega
  · exact fun t he => hplus (List.cons_eq_cons.mp he).1
  · exact fun t he => hminus (List.cons_eq_cons.mp he).1

/-- The number of a range such as `-12,3`, its sign taken off. -/
def rangeStart (sign p : Bytes) : Option ℤ :=
  let n := trimPrefix p sign
  match cut n (lit ",") with
  | some (start,_) => atoi start
  | none => atoi n

/-- The loop over the fields of a hunk header: old and new start, as far as seen. -/
def hunkFields : List Bytes → Option ℤ → Option ℤ → Option (ℤ × ℤ)
  | [], some o, some n => some (o,n)
  | [], _, _ => none
  | p :: ps, o, n =>
    if hasPrefix p (lit "-") then
      match rangeStart (lit "-") p with
      | none => none
      | some v => hunkFields ps (some v) n
    else if hasPrefix p (lit "+") then
      match rangeStart (lit "+") p with
      | none => none
      | some v => hunkFields ps o (some v)
    else hunkFields ps o n

def parseHunkHeader (h : Bytes) : Option (ℤ × ℤ) :=
  let rest := trimPrefix h (lit "@@")
  let rest := match cut rest (lit "@@") with
    | some (inner,_) => inner
    | none => rest
  hunkFields (fields rest) none none

/-- The variables of the walk over one file's diff. -/
structure Walk where
  lines : GoMap ℤ DiffAnchor
  newNo : ℤ := 0
  oldNo : ℤ := 0
  inHunk : Bool := false

def walkLine (newPath oldPath : Bytes) (s : Walk) (raw : Bytes) : Walk :=
  if hasPrefix raw (lit "@@") then
    match parseHunkHeader raw with
    | none => { s with inHunk := false }
    | some (o,n) => { s with oldNo := o, newNo := n, inHunk := true }
  else if s.inHunk = false || hasPrefix raw (lit "+++") || hasPrefix raw (lit "---") ||
      hasPrefix raw (lit "\\") then s
  else if hasPrefix raw (lit "+") then
    let anchor : DiffAnchor := { newPath := newPath, oldPath := oldPath, newLine := s.newNo }
    { s with lines := s.lines.insert s.newNo anchor, newNo := s.newNo+1 }
  else if hasPrefix raw (lit "-") then { s with oldNo := s.oldNo+1 }
  else
    let anchor : DiffAnchor := ⟨newPath,oldPath,s.newNo,s.oldNo,true⟩
    { s with lines := s.lines.insert s.newNo anchor, newNo := s.newNo+1, oldNo := s.oldNo+1 }

def indexDiff (idx : DiffIndex) (d : Option MergeRequestDiff) : DiffIndex :=
  match d with
  | none => idx
  | some d =>
    if d.diff = [] then idx
    else
      let newPath := if d.newPath = [] then d.oldPath else d.newPath
      let oldPath := if d.oldPath = [] then newPath else d.oldPath
      if newPath = [] then idx
      else
        let walk := (d.diff.splitOn newline).foldl (walkLine newPath oldPath) { lines := idx.get newPath }
        idx.insert newPath walk.lines

def indexDiffs (diffs : List (Option MergeRequestDiff)) : DiffIndex := diffs.foldl indexDiff ∅

/-- One more line of a diff counted: additions and deletions. -/
def countLine (n : ℕ × ℕ) (line : Bytes) : ℕ × ℕ :=
  if hasPrefix line (lit "+++") || hasPrefix line (lit "---") then n
  else if hasPrefix line (lit "+") then (n.1+1,n.2)
  else if hasPrefix line (lit "-") then (n.1,n.2+1)
  else n

def countDiffLines (diff : Bytes) : ℕ × ℕ := (diff.splitOn newline).foldl countLine (0,0)

/-- A diff with what has become of its file. -/
structure ChangedDiff extends MergeRequestDiff where
  newFile : Bool
  deletedFile : Bool
  renamedFile : Bool

def fileChange (c : ChangedDiff) : FileChange where
  path := if c.newPath = [] then c.oldPath else c.newPath
  prevPath := c.oldPath
  status :=
    if c.newFile then lit "added" else if c.deletedFile then lit "removed"
    else if c.renamedFile then lit "renamed" else lit "modified"
  patch := c.diff
  additions := (countDiffLines c.diff).1
  deletions := (countDiffLines c.diff).2
  isBinary := c.diff = [] && !c.deletedFile

def ListChangedFiles (listMergeRequestDiffs : Bytes → ℤ → Except Err (List ChangedDiff)) (pr : PullRequest) :
    Except Err (List FileChange) :=
  match listMergeRequestDiffs pr.repoFullName pr.number with
  | .error e => .error (lit "list mr diffs " ++ pr.repoFullName ++ lit "!" ++ intDecimal pr.number ++ lit ": " ++ e)
  | .ok diffs => .ok (diffs.map fileChange)

/-- The endpoints the adapter uses, over a state of the server. A discussion may come back without
its id. -/
structure API (W : Type) where
  getMergeRequest : Bytes → ℤ → W → Except Err DiffRefs
  listMergeRequestDiffs : Bytes → ℤ → W → Except Err (List (Option MergeRequestDiff))
  createMergeRequestDiscussion : Bytes → ℤ → Bytes → PositionOptions → W → Except Err (Option Bytes) × W
  createMergeRequestNote : Bytes → ℤ → Bytes → W → Option Err × W

variable {W : Type} (api : API W) (pr : PullRequest)

def postUnanchoredNote (file : Bytes) (line : ℤ) (body : Bytes) (w : W) : Option Err × W :=
  let loc := if 0 < line then file ++ lit ":" ++ intDecimal line else file
  let text := lit "`" ++ loc ++ lit "` (outside diff)\n\n" ++ body
  let (err,w) := api.createMergeRequestNote pr.repoFullName pr.number text w
  (err.map fun e => lit "create note for " ++ loc ++ lit ": " ++ e,w)

def position (refs : DiffRefs) (anchor : DiffAnchor) : PositionOptions where
  baseSHA := refs.baseSha
  startSHA := refs.startSha
  headSHA := refs.headSha
  positionType := lit "text"
  newPath := anchor.newPath
  oldPath := anchor.oldPath
  newLine := if 0 < anchor.newLine then some anchor.newLine else none
  oldLine :=
    if 0 < anchor.oldLine ∧ (anchor.newLine = 0 ∨ anchor.context = true) then some anchor.oldLine
    else none

/-- One round of the posting loop: the ref it appends and its error, if any. -/
def postOne (refs : DiffRefs) (idx : DiffIndex) (c : InlineComment) (w : W) :
    (PostedInlineRef × Option Err) × W :=
  let body := formatSeverity c.severity ++ c.body
  let line := if c.lineEnd = 0 then c.lineStart else c.lineEnd
  match lookup idx c.file line with
  | none =>
    let (err,w) := postUnanchoredNote api pr c.file line body w
    ((⟨c,[]⟩,err),w)
  | some anchor =>
    match api.createMergeRequestDiscussion pr.repoFullName pr.number body (position refs anchor) w with
    | (.error e,w) =>
      let loc := c.file ++ lit ":" ++ intDecimal line
      ((⟨c,[]⟩,some (lit "create discussion at " ++ loc ++ lit ": " ++ e)),w)
    | (.ok disc,w) => ((⟨c,disc.getD []⟩,none),w)

/-- The loop: a failed comment does not stop the others. -/
def postEach (refs : DiffRefs) (idx : DiffIndex) :
    List InlineComment → W → List (PostedInlineRef × Option Err) × W
  | [], w => ([],w)
  | c :: cs, w =>
    let (r,w) := postOne api pr refs idx c w
    let (rs,w) := postEach refs idx cs w
    (r :: rs,w)

/-- The merge request's refs and its diff index, both needed before anything is posted. -/
def prepare (w : W) : Except Err (DiffRefs × DiffIndex) :=
  match api.getMergeRequest pr.repoFullName pr.number w with
  | .error e => .error (lit "get mr for diff refs: " ++ e)
  | .ok refs =>
    if refs.headSha = [] then
      .error (lit "mr " ++ pr.repoFullName ++ lit "!" ++ intDecimal pr.number ++ lit " has no diff_refs")
    else
      match api.listMergeRequestDiffs pr.repoFullName pr.number w with
      | .error e => .error (lit "list mr diffs for positions: " ++ e)
      | .ok diffs => .ok (refs,indexDiffs diffs)

def PostInlineComments (comments : List InlineComment) (w : W) :
    (List PostedInlineRef × Option Err) × W :=
  if comments = [] then (([],none),w)
  else
    match prepare api pr w with
    | .error e => (([],some e),w)
    | .ok (refs,idx) =>
      let (rs,w) := postEach api pr refs idx comments w
      ((rs.map Prod.fst,rs.findSome? Prod.snd),w)

/-- The adapter's posting of inline comments, put in the place of another provider's. -/
def adapter (other : Provider W) : Provider W :=
  { other with kind := KindGitLab, postInlineComments := PostInlineComments api }

lemma postEach_length (refs : DiffRefs) (idx : DiffIndex) (cs : List InlineComment) (w : W) :
    (postEach api pr refs idx cs w).1.length = cs.length := by
  induction cs generalizing w with
  | nil => rfl
  | cons c cs ih => simp [postEach,ih]

/-- For each comment of a call, whether its discussion or note was created; empty when the adapter
gives up before posting anything. -/
def creations (comments : List InlineComment) (w : W) : List Bool :=
  match prepare api pr w with
  | .error _ => []
  | .ok (refs,idx) => (postEach api pr refs idx comments w).1.map fun r => r.2.isNone

/-- The call of the API that makes a comment's discussion or note answers without error. -/
def Made (refs : DiffRefs) (idx : DiffIndex) (c : InlineComment) (w : W) : Prop :=
  let body := formatSeverity c.severity ++ c.body
  let line := if c.lineEnd = 0 then c.lineStart else c.lineEnd
  let loc := if 0 < line then c.file ++ lit ":" ++ intDecimal line else c.file
  match lookup idx c.file line with
  | none =>
    (api.createMergeRequestNote pr.repoFullName pr.number (lit "`" ++ loc ++ lit "` (outside diff)\n\n" ++ body) w).1 = none
  | some anchor =>
    ∃ disc, (api.createMergeRequestDiscussion pr.repoFullName pr.number body (position refs anchor) w).1 = .ok disc

lemma postOne_made (refs : DiffRefs) (idx : DiffIndex) (c : InlineComment) (w : W) :
    (postOne api pr refs idx c w).1.2 = none ↔ Made api pr refs idx c w := by
  rw [postOne,Made]
  dsimp only
  split
  · rw [postUnanchoredNote]
    exact Option.map_eq_none_iff
  · split
    · next h => simp [h]
    · next h => simp [h]

/-- The comments of a call, each with the server as the one before has left it. -/
def reached (refs : DiffRefs) (idx : DiffIndex) : List InlineComment → W → List (InlineComment × W)
  | [], _ => []
  | c :: cs, w => (c,w) :: reached refs idx cs (postOne api pr refs idx c w).2

/-- A comment counts as created exactly when the API has made its discussion or note. -/
theorem creations_made {refs : DiffRefs} {idx : DiffIndex} {w : W} (h : prepare api pr w = .ok (refs,idx))
    (comments : List InlineComment) :
    List.Forall₂ (fun created q => created = true ↔ Made api pr refs idx q.1 q.2) (creations api pr comments w)
      (reached api pr refs idx comments w) := by
  rw [creations,h]
  dsimp only
  clear h
  induction comments generalizing w with
  | nil => exact .nil
  | cons c cs ih => exact .cons (Option.isNone_iff_eq_none.trans (postOne_made api pr refs idx c w)) ih

/-- A call that gets to its loop answers with one ref for each comment, created or not. -/
theorem PostInlineComments_refs (comments : List InlineComment) (w : W) :
    (PostInlineComments api pr comments w).1.1.length =
      if (prepare api pr w).isOk then comments.length else 0 := by
  unfold PostInlineComments
  split
  · next h => simp [h]
  · cases prepare api pr w with
    | error e => rfl
    | ok found =>
      obtain ⟨refs,idx⟩ := found
      dsimp only
      rw [List.length_map,postEach_length]
      rfl

example : parseHunkHeader (lit "@@ -12,3 +14,5 @@ func f") = some (12,14) := by decide +kernel

end GitLab
