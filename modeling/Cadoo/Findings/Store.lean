import Cadoo.Findings.Postgres

/-! The posted-state store: Postgres, memory, or neither, in which case every operation does
nothing. -/
namespace Findings
open Utf8 Vcs

structure Store where
  pool : Option Database := none
  mem : Option MemoryStore := none

namespace Store
variable (U : Tables) (s : Store) (key : PRKey) (tool : Bytes)

def New (pool : Database) : Store := { pool := some pool }
def NewMemory : Store := { mem := some {} }

def Enabled : Bool := s.pool.isSome || s.mem.isSome

/-- The state after an operation on the pool; a failed statement leaves it as it was. -/
def ofPool (db : Database) : Except SQLError Database → Store × Option SQLError
  | .ok db' => (⟨some db',none⟩,none)
  | .error e => (⟨some db,none⟩,some e)

def HasFinding (c : InlineComment) : Except SQLError Bool :=
  match s.mem,s.pool with
  | some m,_ => .ok (m.has U key tool c)
  | none,none => .ok false
  | none,some db => db.hasFinding U key tool c

def RecordFinding (externalCommentID : Bytes) (c : InlineComment) : Store × Option SQLError :=
  match s.mem,s.pool with
  | some m,pool => (⟨pool,some (m.record U key tool externalCommentID c)⟩,none)
  | none,none => (s,none)
  | none,some db => ofPool db (db.recordFinding U key tool externalCommentID c)

def ListPostedFindings : Except SQLError (List PostedFinding) :=
  match s.mem,s.pool with
  | some m,_ => .ok (m.list key)
  | none,none => .ok []
  | none,some db => db.listPostedFindings key

def LastReviewedSHA : Bytes :=
  match s.mem with
  | some m => m.lastReviewedSHA
  | none => []

def SummaryID : Except SQLError Bytes :=
  match s.mem,s.pool with
  | some m,_ => .ok (m.summaryID key tool)
  | none,none => .ok []
  | none,some db => db.summaryID key tool

def PutSummaryID (externalCommentID : Bytes) : Store × Option SQLError :=
  match s.mem,s.pool with
  | some m,pool => (⟨pool,some (m.putSummaryID key tool externalCommentID)⟩,none)
  | none,none => (s,none)
  | none,some db => ofPool db (db.putSummaryID key tool externalCommentID)

def PutSection (body : Bytes) : Store × Option SQLError :=
  match s.mem,s.pool with
  | some m,pool => (⟨pool,some (m.putSection key tool body)⟩,none)
  | none,none => (s,none)
  | none,some db => ofPool db (db.putSection key tool body)

def AllSections : Except SQLError (List Section) :=
  match s.mem,s.pool with
  | some m,_ => .ok (m.allSections key)
  | none,none => .ok []
  | none,some db => db.allSections key

section Bookkeeping
variable {β : Type} {f : Store → β} (hmem : ∀ pool m m', MemoryStore.findings m' = m.findings →
    f ⟨pool,some m'⟩ = f ⟨pool,some m⟩)
  (hpool : ∀ db rows, f ⟨some { db with summaries := rows },none⟩ = f ⟨some db,none⟩)
include hmem hpool

/-- Summary bookkeeping leaves alone whatever depends on the findings only. -/
lemma PutSection_frame (body : Bytes) : f (s.PutSection key tool body).1 = f s := by
  obtain ⟨pool,mem⟩ := s
  cases mem with
  | some m => exact hmem pool m _ rfl
  | none =>
    cases pool with
    | none => rfl
    | some db =>
      simp only [PutSection,Database.putSection]
      split
      · exact hpool db _
      · rfl

lemma PutSummaryID_frame (id : Bytes) : f (s.PutSummaryID key tool id).1 = f s := by
  obtain ⟨pool,mem⟩ := s
  cases mem with
  | some m => exact hmem pool m _ rfl
  | none =>
    cases pool with
    | none => rfl
    | some db =>
      simp only [PutSummaryID,Database.putSummaryID]
      split
      · exact hpool db _
      · rfl

end Bookkeeping

lemma ListPostedFindings_congr (key' : PRKey) (pool : Option Database) (m m' : MemoryStore)
    (h : m'.findings = m.findings) :
    ListPostedFindings ⟨pool,some m'⟩ key' = ListPostedFindings ⟨pool,some m⟩ key' := by
  simp only [ListPostedFindings,MemoryStore.list,h]

@[simp] lemma ListPostedFindings_PutSection (body : Bytes) (key' : PRKey) :
    (s.PutSection key tool body).1.ListPostedFindings key' = s.ListPostedFindings key' :=
  s.PutSection_frame key tool (f := fun s => s.ListPostedFindings key') (ListPostedFindings_congr key')
    (fun _ _ => rfl) body

@[simp] lemma ListPostedFindings_PutSummaryID (id : Bytes) (key' : PRKey) :
    (s.PutSummaryID key tool id).1.ListPostedFindings key' = s.ListPostedFindings key' :=
  s.PutSummaryID_frame key tool (f := fun s => s.ListPostedFindings key') (ListPostedFindings_congr key')
    (fun _ _ => rfl) id

end Store

end Findings
