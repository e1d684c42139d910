import Cadoo.Findings.Postgres
import Cadoo.Kb.ChunkText
import Cadoo.Lib.Steps

/-! The knowledge base in Postgres. A document replaces its older version, chunks and all, in one transaction; calls
run at the same time, and the statements they send take turns in any way. A statement sees what has been committed
and what its own transaction has written, and the row of a document is locked from its upsert on. -/
namespace Kb
open Bytes Utf8 Steps
open Findings (textOk int4Ok)

def DefaultOverlap : ℤ := 80

/-- The chunks of a body, with as much fuel as they need. -/
def chunksOf (body : Bytes) : List Bytes := (Chunk (body.length+1) body DefaultChunkSize DefaultOverlap).getD []

/-- What a document is found by. -/
structure DocumentKey where
  repoKey : Bytes
  source : Bytes
  title : Bytes
  deriving DecidableEq

/-- A row of `kb_documents`. -/
structure DocumentRow where
  id : ℕ
  key : DocumentKey
  body : Bytes

/-- A row of `kb_chunks`. -/
structure ChunkRow (V : Type) where
  id : ℕ
  documentID : ℕ
  repoKey : Bytes
  ordinal : ℕ
  text : Bytes
  embedding : V
  deriving DecidableEq

/-- What has been committed. -/
structure Tables (V : Type) where
  documents : List DocumentRow
  chunks : List (ChunkRow V)

inductive IngestError where
  | emptyBody
  | begin
  | upsertDocument
  | deletePriorChunks
  | embed
  | vectors (returned wanted : ℕ)
  | insertChunk (i : ℕ)
  /-- The call itself does not know whether its commit has been carried out. -/
  | commit (carriedOut : Bool)
  deriving DecidableEq

/-- How far a transaction is: the rows it has deleted, those it has inserted, and the texts and vectors it has yet to
insert. -/
inductive Stage (V : Type) where
  | upserted
  | deleted (gone : List (ChunkRow V))
  | inserting (gone written : List (ChunkRow V)) (todo : List (Bytes × V))

/-- Where a call is. From its upsert on it knows the document's id and holds the lock of the row. -/
inductive Phase (V : Type) where
  | called
  | begun
  | working (id : ℕ) (stage : Stage V)
  | done (result : Except IngestError ℕ)

/-- A call of `IngestDocument`. -/
structure Call (V : Type) where
  key : DocumentKey
  body : Bytes
  phase : Phase V

/-- What a call sends next, and whether it gets through. The embedder may answer otherwise each time. The answer to a
commit may be lost although it has been carried out. -/
inductive Statement (V : Type) where
  | begin (ok : Bool)
  | upsertDoc (ok : Bool)
  | deletePrior (ok : Bool)
  | embed (embedder : List Bytes → Option (List V))
  | insertChunk (ok : Bool)
  | commit (ok answered : Bool)

section Statements
variable {V : Type} [DecidableEq V] (vectorOk : V → Bool) (t : Tables V)

def DocumentKey.ok (k : DocumentKey) : Bool := textOk k.repoKey && textOk k.source && textOk k.title

/-- The id the upsert returns: that of the row with this key, or else a new one. -/
def Tables.idOf (key : DocumentKey) (fresh : ℕ) : ℕ :=
  match t.documents.find? fun d => d.key = key with
  | some d => d.id
  | none => fresh

/-- The rows that `DELETE FROM kb_chunks WHERE document_id = $1` sees. -/
def Tables.chunksOfDocument (id : ℕ) : List (ChunkRow V) := t.chunks.filter fun r => r.documentID = id

/-- The columns of `kb_chunks` and its unique key let a row in. -/
def Tables.admits (gone written : List (ChunkRow V)) (r : ChunkRow V) : Bool :=
  textOk r.text && textOk r.repoKey && int4Ok r.ordinal && vectorOk r.embedding &&
    (t.chunks.filter (· ∉ gone) ++ written).all fun q => !(q.documentID = r.documentID && q.ordinal = r.ordinal)

def Tables.putDocument (doc : DocumentRow) : List DocumentRow :=
  if t.documents.any fun d => d.key = doc.key then t.documents.map fun d => if d.key = doc.key then doc else d
  else t.documents ++ [doc]

/-- What a transaction leaves when it is committed. -/
def Tables.commit (doc : DocumentRow) (gone written : List (ChunkRow V)) : Tables V :=
  ⟨t.putDocument doc,t.chunks.filter (· ∉ gone) ++ written⟩

/-- `IngestDocument` sends its statements one after the other, and rolls back at the first that fails. Identifiers are
drawn one after the other; an upsert waits while the row is locked. -/
def Call.send (locked : Bool) (n : ℕ) (c : Call V) (stmt : Statement V) : Option (Phase V × Tables V × ℕ) :=
  match c.phase, stmt with
  | .called, .begin ok =>
    if chunksOf c.body = [] then some (.done (.error .emptyBody),t,n)
    else if ok then some (.begun,t,n)
    else some (.done (.error .begin),t,n)
  | .begun, .upsertDoc ok =>
    if !(ok && c.key.ok && textOk c.body) then some (.done (.error .upsertDocument),t,n)
    else if locked then none
    else some (.working (t.idOf c.key n) .upserted,t,n+1)
  | .working id .upserted, .deletePrior ok =>
    if ok then some (.working id (.deleted (t.chunksOfDocument id)),t,n)
    else some (.done (.error .deletePriorChunks),t,n)
  | .working id (.deleted gone), .embed embedder =>
    match embedder (chunksOf c.body) with
    | none => some (.done (.error .embed),t,n)
    | some vectors =>
      if vectors.length = (chunksOf c.body).length then
        some (.working id (.inserting gone [] ((chunksOf c.body).zip vectors)),t,n)
      else some (.done (.error (.vectors vectors.length (chunksOf c.body).length)),t,n)
  | .working id (.inserting gone written ((text,vector) :: todo)), .insertChunk ok =>
    let row : ChunkRow V := ⟨n,id,c.key.repoKey,written.length,text,vector⟩
    if ok && t.admits vectorOk gone written row then
      some (.working id (.inserting gone (written ++ [row]) todo),t,n+1)
    else some (.done (.error (.insertChunk written.length)),t,n+1)
  | .working id (.inserting gone written []), .commit ok answered =>
    if ok then
      some (.done (if answered then .ok id else .error (.commit true)),t.commit ⟨id,c.key,c.body⟩ gone written,n)
    else some (.done (.error (.commit false)),t,n)
  | _, _ => none

/-- The document a call has upserted and not yet committed, and what it has done with its chunks. -/
def Call.working (c : Call V) : Option (DocumentRow × Stage V) :=
  match c.phase with
  | .working id stage => some (⟨id,c.key,c.body⟩,stage)
  | _ => none

end Statements

/-- The database with the calls made so far. -/
structure State (V : Type) where
  tables : Tables V
  nextID : ℕ
  calls : List (Call V)

inductive Event (V : Type) where
  | call (key : DocumentKey) (body : Bytes)
  | send (i : ℕ) (stmt : Statement V)

namespace State
variable {V : Type} [DecidableEq V] (vectorOk : V → Bool) (s : State V)

/-- A document's row is locked by the call that has upserted it. -/
def locked (key : DocumentKey) : Bool := (s.calls.filterMap Call.working).any fun w => w.1.key = key

def step : Event V → Option (State V)
  | .call key body => some { s with calls := s.calls ++ [⟨key,body,.called⟩] }
  | .send i stmt =>
    (s.calls[i]?).bind fun c =>
      (c.send vectorOk s.tables (s.locked c.key) s.nextID stmt).map fun r =>
        ⟨r.2.1,r.2.2,s.calls.set i { c with phase := r.1 }⟩

end State

end Kb
