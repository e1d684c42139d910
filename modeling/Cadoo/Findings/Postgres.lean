import Cadoo.Findings.MemoryStore

/-! The Postgres backend: the two tables of the posted state and the statements run on them. A text
parameter must be valid UTF-8 without NUL, and an `INT` column holds 32 bits; a statement that
breaks one of these fails and changes nothing. -/
namespace Findings
open Bytes Utf8 Vcs

/-- A row of `posted_findings`. Every column but the key may be NULL. -/
structure FindingRow where
  provider : Bytes
  repoFullName : Bytes
  prNumber : ℤ
  tool : Bytes
  fingerprint : Bytes
  severity : Option Bytes
  file : Option Bytes
  lineStart : Option ℤ
  lineEnd : Option ℤ
  title : Option Bytes
  externalCommentID : Option Bytes
  structuralKey : Option Bytes
  normalizedTitle : Option Bytes
  deriving DecidableEq

/-- A row of `posted_summaries`. -/
structure SummaryRow where
  provider : Bytes
  repoFullName : Bytes
  prNumber : ℤ
  tool : Bytes
  externalCommentID : Bytes
  body : Bytes
  deriving DecidableEq

/-- The two tables, in insertion order, and the collation that `ORDER BY` follows. -/
structure Database where
  findings : List FindingRow := []
  summaries : List SummaryRow := []
  collate : Bytes → Bytes → Bool

inductive SQLError where
  | hasFinding | scanFinding | recordFinding | listPostedFindings | summaryID | putSummaryID
  | putSection | allSections
  deriving DecidableEq

def textOk (s : Bytes) : Bool := valid s && decide (nul ∉ s)
def int4Ok (n : ℤ) : Bool := -2147483648 ≤ n && n ≤ 2147483647

/-- `NULLIF($13, '')` -/
def nullIfEmpty (s : Bytes) : Option Bytes := if s = [] then none else some s

def FindingRow.ofPR (r : FindingRow) (key : PRKey) : Bool :=
  r.provider == key.provider && r.repoFullName == key.repoFullName && r.prNumber == key.prNumber

def SummaryRow.ofPR (r : SummaryRow) (key : PRKey) : Bool :=
  r.provider == key.provider && r.repoFullName == key.repoFullName && r.prNumber == key.prNumber

def keyOk (key : PRKey) : Bool := textOk key.provider && textOk key.repoFullName

/-- `coalesce(normalized_title, lower(coalesce(title, '')))` -/
def FindingRow.storedTitle (U : Tables) (r : FindingRow) : Bytes :=
  match r.normalizedTitle with
  | some t => t
  | none => toLower U (r.title.getD [])

def FindingRow.posted (r : FindingRow) : PostedFinding where
  tool := r.tool
  file := r.file.getD []
  lineStart := r.lineStart.getD 0
  lineEnd := r.lineEnd.getD 0
  severity := r.severity.getD []
  title := r.title.getD []
  externalCommentID := r.externalCommentID.getD []
  structuralKey := r.structuralKey.getD []

/-- The row inserted for a posted comment. -/
def newRow (U : Tables) (key : PRKey) (tool externalID : Bytes) (c : InlineComment) :
    FindingRow where
  provider := key.provider
  repoFullName := key.repoFullName
  prNumber := key.prNumber
  tool := tool
  fingerprint := Fingerprint U tool c
  severity := some c.severity
  file := some c.file
  lineStart := some c.lineStart
  lineEnd := some c.lineEnd
  title := some (firstLine c.body)
  externalCommentID := nullIfEmpty externalID
  structuralKey := some (StructuralKey U tool c)
  normalizedTitle := some (normalizeTitle U c.body)

/-- The loop over the rows of the lookup: a match ends it, a NULL key is a scan error. -/
def scanFindings (U : Tables) (tool : Bytes) (c : InlineComment) :
    List FindingRow → Except SQLError Bool
  | [] => .ok false
  | r :: rows =>
    match r.structuralKey with
    | none => .error .scanFinding
    | some storedKey =>
      if storedKey = StructuralKey U tool c then .ok true
      else if SimilarTitleThreshold ≤ jaccard (titleTokens U c.body) (tokenize U (r.storedTitle U))
      then .ok true
      else scanFindings U tool c rows

namespace Database
variable (U : Tables) (db : Database) (key : PRKey) (tool : Bytes)

def hasFinding (c : InlineComment) : Except SQLError Bool :=
  if keyOk key && textOk tool && textOk c.file && textOk c.severity then
    scanFindings U tool c (db.findings.filter fun r =>
      r.ofPR key && r.tool == tool && r.file == some c.file && r.severity == some c.severity)
  else .error .hasFinding

/-- `ON CONFLICT (provider, repo_full_name, pr_number, fingerprint) DO NOTHING` -/
def recordFinding (externalID : Bytes) (c : InlineComment) : Except SQLError Database :=
  if keyOk key && textOk tool && textOk c.severity && textOk c.file && textOk (firstLine c.body) &&
      textOk (normalizeTitle U c.body) && textOk externalID && int4Ok c.lineStart && int4Ok c.lineEnd
  then
    if db.findings.any fun r => r.ofPR key && r.fingerprint == Fingerprint U tool c then .ok db
    else .ok { db with findings := db.findings ++ [newRow U key tool externalID c] }
  else .error .recordFinding

/-- `ORDER BY file, line_start, line_end` -/
def findingOrder (p q : PostedFinding) : Bool :=
  if p.file ≠ q.file then db.collate p.file q.file
  else if p.lineStart ≠ q.lineStart then p.lineStart ≤ q.lineStart
  else p.lineEnd ≤ q.lineEnd

def listPostedFindings : Except SQLError (List PostedFinding) :=
  if keyOk key then
    .ok (((db.findings.filter fun r => r.ofPR key).map FindingRow.posted).mergeSort db.findingOrder)
  else .error .listPostedFindings

def summaryID : Except SQLError Bytes :=
  if keyOk key && textOk tool then
    .ok (((db.summaries.find? fun r => r.ofPR key && r.tool == tool).map
      SummaryRow.externalCommentID).getD [])
  else .error .summaryID

/-- An upsert on (PR, tool): the row in place is changed, or a new one inserted. -/
def upsert (new : SummaryRow) (update : SummaryRow → SummaryRow) : List SummaryRow → List SummaryRow
  | [] => [new]
  | r :: rows =>
    if r.ofPR ⟨new.provider,new.repoFullName,new.prNumber⟩ && r.tool == new.tool
    then update r :: rows
    else r :: upsert new update rows

def putSummaryID (externalID : Bytes) : Except SQLError Database :=
  if keyOk key && textOk tool && textOk externalID then
    let new : SummaryRow := ⟨key.provider,key.repoFullName,key.prNumber,tool,externalID,[]⟩
    let rows := upsert new (fun r => { r with externalCommentID := externalID }) db.summaries
    .ok { db with summaries := rows }
  else .error .putSummaryID

def putSection (body : Bytes) : Except SQLError Database :=
  if keyOk key && textOk tool && textOk body then
    let new : SummaryRow := ⟨key.provider,key.repoFullName,key.prNumber,tool,[],body⟩
    .ok { db with summaries := upsert new (fun r => { r with body := body }) db.summaries }
  else .error .putSection

/-- `ORDER BY tool` over the rows with a tool and a body. -/
def allSections : Except SQLError (List Section) :=
  if keyOk key then
    .ok (((db.summaries.filter fun r => r.ofPR key && r.tool ≠ [] && r.body ≠ []).map
      fun r => ⟨r.tool,r.body⟩).mergeSort fun a b => db.collate a.tool b.tool)
  else .error .allSections

end Database

end Findings
