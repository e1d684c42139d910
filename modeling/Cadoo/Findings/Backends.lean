import Cadoo.Findings.Store
import Cadoo.Lib.Machine

/-! The two backends side by side. The same writes go to a memory store and to an empty database,
and the answers are compared. They agree as long as no write meets one of the two differences: a
record that only now learns its id, and a comment that does not fit the columns of its row. -/
namespace Findings
open Bytes Utf8 Vcs

variable (U : Tables)

inductive Write where
  | recordFinding (key : PRKey) (tool externalCommentID : Bytes) (c : InlineComment)
  | putSummaryID (key : PRKey) (tool externalCommentID : Bytes)
  | putSection (key : PRKey) (tool body : Bytes)

def Store.write (s : Store) : Write → Store
  | .recordFinding key tool id c => (s.RecordFinding U key tool id c).1
  | .putSummaryID key tool id => (s.PutSummaryID key tool id).1
  | .putSection key tool body => (s.PutSection key tool body).1

/-- Every text of a write is valid UTF-8 without NUL. -/
def Write.clean : Write → Bool
  | .recordFinding key tool id c => keyOk key && textOk tool && textOk id && textOk c.file &&
      textOk c.severity && textOk c.body
  | .putSummaryID key tool id => keyOk key && textOk tool && textOk id
  | .putSection key tool body => keyOk key && textOk tool && textOk body

/-- Two stores that no reader can tell apart: the findings are compared as a multiset, the sections
as a set. -/
structure SameAnswers (s t : Store) : Prop where
  hasFinding : ∀ key tool (c : InlineComment), keyOk key = true → textOk tool = true →
    textOk c.file = true → textOk c.severity = true →
      s.HasFinding U key tool c = t.HasFinding U key tool c
  listPostedFindings : ∀ key, keyOk key = true → ∃ l l', s.ListPostedFindings key = .ok l ∧
    t.ListPostedFindings key = .ok l' ∧ l.Perm l'
  summaryID : ∀ key tool, keyOk key = true → textOk tool = true →
    s.SummaryID key tool = t.SummaryID key tool
  allSections : ∀ key, keyOk key = true → ∃ l l', s.AllSections key = .ok l ∧
    t.AllSections key = .ok l' ∧ ∀ x, x ∈ l ↔ x ∈ l'

/-- A comment that is recorded already has its id or is given none; another one fits its row. -/
def MemoryStore.Fits (m : MemoryStore) : Write → Prop
  | .recordFinding key tool id c =>
    match (m.findings.get key).find? fun r => r.fingerprint = Fingerprint U tool c with
    | some r => r.externalID ≠ [] ∨ id = []
    | none => int4Ok c.lineStart = true ∧ int4Ok c.lineEnd = true ∧ valid (firstLine c.body) = true
  | _ => True

/-- The row that holds a record. -/
def rowOf (key : PRKey) (r : FindingRec) : FindingRow where
  provider := key.provider
  repoFullName := key.repoFullName
  prNumber := key.prNumber
  tool := r.tool
  fingerprint := r.fingerprint
  severity := some r.severity
  file := some r.file
  lineStart := some r.lineStart
  lineEnd := some r.lineEnd
  title := some r.title
  externalCommentID := nullIfEmpty r.externalID
  structuralKey := some r.structuralKey
  normalizedTitle := some r.normalizedTitle

/-- The row of the (PR, tool) pair. -/
def SummaryRow.isAt (r : SummaryRow) (key : PRKey) (tool : Bytes) : Bool := r.ofPR key && r.tool == tool

def SummaryRow.place (r : SummaryRow) : PRKey × Bytes := (⟨r.provider,r.repoFullName,r.prNumber⟩,r.tool)

/-- A database that holds what a memory store holds. -/
structure Mirrors (m : MemoryStore) (db : Database) : Prop where
  findings : ∀ key, (db.findings.filter fun r => r.ofPR key) = (m.findings.get key).map (rowOf key)
  unresolved : ∀ key, ∀ r ∈ m.findings.get key, r.resolved = false
  unique : (db.summaries.map SummaryRow.place).Nodup
  summaryID : ∀ key tool, ((db.summaries.find? fun r => r.isAt key tool).map
    SummaryRow.externalCommentID).getD [] = m.summaries.get (key,tool)
  body : ∀ key tool, ((db.summaries.find? fun r => r.isAt key tool).map
    SummaryRow.body).getD [] = (m.sections.get key).get tool

section Rows

lemma ofPR_iff {r : FindingRow} {key : PRKey} :
    r.ofPR key = true ↔ (⟨r.provider,r.repoFullName,r.prNumber⟩ : PRKey) = key := by
  cases key
  simp [FindingRow.ofPR,and_assoc]

lemma isAt_iff {r : SummaryRow} {key : PRKey} {tool : Bytes} :
    r.isAt key tool = true ↔ r.place = (key,tool) := by
  cases key
  simp [SummaryRow.isAt,SummaryRow.ofPR,SummaryRow.place,and_assoc]

lemma recordInto_of_notMem {rec : FindingRec} {rs : List FindingRec}
    (h : ∀ r ∈ rs, r.fingerprint ≠ rec.fingerprint) : recordInto rec rs = rs ++ [rec] := by
  induction rs with
  | nil => rfl
  | cons r rs ih =>
    rw [recordInto,if_neg (h r (by simp)),ih fun q hq => h q (by simp [hq])]
    rfl

lemma recordInto_of_find {rec r : FindingRec} {rs : List FindingRec}
    (h : rs.find? (fun q => q.fingerprint = rec.fingerprint) = some r)
    (hid : r.externalID ≠ [] ∨ rec.externalID = []) : recordInto rec rs = rs := by
  induction rs with
  | nil => simp at h
  | cons q rs ih =>
    rw [recordInto]
    rw [List.find?_cons] at h
    split
    · next hq =>
      obtain rfl : q = r := by simpa [hq] using h
      rw [if_neg]
      rintro ⟨h₁,h₂⟩
      exact hid.elim (fun hr => hr h₁) fun hr => h₂ hr
    · next hq =>
      rw [ih (by simpa [hq] using h)]

lemma posted_rowOf (key : PRKey) (r : FindingRec) : (rowOf key r).posted = r.posted := by
  have hid : (nullIfEmpty r.externalID).getD [] = r.externalID := by
    unfold nullIfEmpty
    split
    · next hr => exact hr.symm
    · rfl
  simp [FindingRow.posted,FindingRec.posted,rowOf,hid]

/-- A record that learns its id leaves one empty id less. -/
lemma recordInto_emptyIDs {rec r : FindingRec} {rs : List FindingRec}
    (h : rs.find? (fun q => q.fingerprint = rec.fingerprint) = some r) (hr : r.externalID = [])
    (hid : rec.externalID ≠ []) : ((recordInto rec rs).map FindingRec.externalID).count [] + 1 =
      (rs.map FindingRec.externalID).count [] := by
  induction rs with
  | nil => simp at h
  | cons q rs ih =>
    rw [recordInto]
    rw [List.find?_cons] at h
    split
    · next hq =>
      obtain rfl : q = r := by simpa [hq] using h
      simp [hr,hid]
    · next hq =>
      have ih := ih (by simpa [hq] using h)
      simp only [List.map_cons,List.count_cons]
      omega

/-- The rows scanned for a comment give the answer of the records behind them. -/
lemma scanFindings_rowOf (key : PRKey) (tool : Bytes) (c : InlineComment) {rs : List FindingRec}
    (h : ∀ r ∈ rs, r.resolved = false) :
    scanFindings U tool c ((rs.map (rowOf key)).filter fun r =>
        r.tool == tool && r.file == some c.file && r.severity == some c.severity) =
      .ok (rs.any fun r => r.matchesComment U tool c) := by
  induction rs with
  | nil => rfl
  | cons r rs ih =>
    have ih := ih fun q hq => h q (by simp [hq])
    rw [List.map_cons,List.filter_cons,List.any_cons]
    split
    · next hr =>
      have hsame : ¬ (r.tool ≠ tool ∨ r.file ≠ c.file ∨ r.severity ≠ c.severity) := by
        simpa [rowOf,and_assoc] using hr
      have hm : r.matchesComment U tool c = (r.structuralKey == StructuralKey U tool c ||
          decide (SimilarTitleThreshold ≤
            jaccard (titleTokens U c.body) (tokenize U r.normalizedTitle))) := by
        rw [FindingRec.matchesComment,if_neg hsame,if_pos (h r (by simp))]
      rw [hm,scanFindings]
      change (if r.structuralKey = StructuralKey U tool c then _ else
        if SimilarTitleThreshold ≤ jaccard (titleTokens U c.body) (tokenize U r.normalizedTitle) then _
        else _) = _
      split
      · next hk => simp [hk]
      · next hk =>
        split
        · next hj => simp [hj]
        · next hj =>
          rw [ih]
          simp [hk,hj]
    · next hr =>
      have hdiff : r.tool ≠ tool ∨ r.file ≠ c.file ∨ r.severity ≠ c.severity := by
        by_contra hno
        apply hr
        push Not at hno
        simp [rowOf,hno]
      rw [ih,FindingRec.matchesComment,if_pos hdiff,Bool.false_or]

variable {new : SummaryRow} {update : SummaryRow → SummaryRow}

lemma upsert_cons (r : SummaryRow) (rows : List SummaryRow) :
    Database.upsert new update (r :: rows) = if r.isAt new.place.1 new.place.2 then update r :: rows
      else r :: Database.upsert new update rows := rfl

/-- An upsert is seen at its own place only. -/
lemma find_upsert (hu : ∀ r, (update r).place = r.place) (rows : List SummaryRow) (key : PRKey)
    (tool : Bytes) : (Database.upsert new update rows).find? (fun r => r.isAt key tool) =
      if new.place = (key,tool) then
        some (match rows.find? fun r => r.isAt key tool with
          | some r => update r
          | none => new)
      else rows.find? fun r => r.isAt key tool := by
  have hupd : ∀ r, (update r).isAt key tool = r.isAt key tool := by
    intro r
    rw [Bool.eq_iff_iff,isAt_iff,isAt_iff,hu]
  induction rows with
  | nil =>
    rw [Database.upsert,List.find?_cons]
    by_cases hn : new.place = (key,tool)
    · simp [hn,isAt_iff.mpr hn]
    · have : new.isAt key tool = false := by simpa using mt isAt_iff.mp hn
      simp [hn,this]
  | cons r rows ih =>
    rw [upsert_cons]
    by_cases hr : r.isAt new.place.1 new.place.2 = true
    · rw [if_pos hr,List.find?_cons,List.find?_cons,hupd]
      by_cases hn : new.place = (key,tool)
      · have : r.isAt key tool = true := by rw [isAt_iff,← hn,isAt_iff.mp hr]
        simp [hn,this]
      · have : r.isAt key tool = false := by
          by_contra hk
          exact hn (by rw [← isAt_iff.mp (by simpa using hk),isAt_iff.mp hr])
        simp [hn,this]
    · rw [if_neg hr,List.find?_cons,List.find?_cons,ih]
      by_cases hk : r.isAt key tool = true
      · have hn : new.place ≠ (key,tool) := by
          intro he
          exact hr (by rw [he]; exact hk)
        simp [hk,hn]
      · have hk : r.isAt key tool = false := by simpa using hk
        simp [hk]

/-- A column that an upsert leaves alone. -/
lemma column_frame (hu : ∀ r, (update r).place = r.place) {f : SummaryRow → Bytes}
    (hf : ∀ r, f (update r) = f r) (hnew : f new = []) (rows : List SummaryRow) (key : PRKey)
    (tool : Bytes) : (((Database.upsert new update rows).find? fun r => r.isAt key tool).map f).getD [] =
      ((rows.find? fun r => r.isAt key tool).map f).getD [] := by
  rw [find_upsert hu]
  split
  · cases rows.find? fun r => r.isAt key tool with
    | some r => simp [hf]
    | none => simp [hnew]
  · rfl

/-- A column that an upsert writes. -/
lemma column_set (hu : ∀ r, (update r).place = r.place) {f : SummaryRow → Bytes} {v : Bytes}
    (hf : ∀ r, f (update r) = v) (hnew : f new = v) (rows : List SummaryRow) (key : PRKey)
    (tool : Bytes) : (((Database.upsert new update rows).find? fun r => r.isAt key tool).map f).getD [] =
      if new.place = (key,tool) then v else ((rows.find? fun r => r.isAt key tool).map f).getD [] := by
  rw [find_upsert hu]
  split
  · cases rows.find? fun r => r.isAt key tool with
    | some r => simp [hf]
    | none => simp [hnew]
  · rfl

lemma mem_places_upsert (hu : ∀ r, (update r).place = r.place) {rows : List SummaryRow}
    {pl : PRKey × Bytes} (h : pl ∈ (Database.upsert new update rows).map SummaryRow.place) :
    pl = new.place ∨ pl ∈ rows.map SummaryRow.place := by
  induction rows with
  | nil => exact .inl (by simpa [Database.upsert] using h)
  | cons r rows ih =>
    rw [upsert_cons] at h
    split at h
    · exact .inr (by simpa [hu] using h)
    · rcases List.mem_cons.mp h with rfl | h
      · exact .inr (by simp)
      · rcases ih h with h | h
        · exact .inl h
        · exact .inr (List.mem_cons_of_mem _ h)

lemma upsert_unique (hu : ∀ r, (update r).place = r.place) {rows : List SummaryRow}
    (h : (rows.map SummaryRow.place).Nodup) :
    ((Database.upsert new update rows).map SummaryRow.place).Nodup := by
  induction rows with
  | nil => simp [Database.upsert]
  | cons r rows ih =>
    rw [List.map_cons,List.nodup_cons] at h
    rw [upsert_cons]
    split
    · simpa [hu] using h
    · next hr =>
      rw [List.map_cons,List.nodup_cons]
      refine ⟨fun hm => ?_,ih h.2⟩
      rcases mem_places_upsert hu hm with he | hm
      · exact hr (isAt_iff.mpr he)
      · exact h.1 hm

/-- With one row a place, the row at a place is the one found there. -/
lemma find_of_mem {rows : List SummaryRow} (hu : (rows.map SummaryRow.place).Nodup) {r : SummaryRow}
    (h : r ∈ rows) {key : PRKey} {tool : Bytes} (hr : r.isAt key tool = true) :
    rows.find? (fun q => q.isAt key tool) = some r := by
  induction rows with
  | nil => simp at h
  | cons q rows ih =>
    rw [List.map_cons,List.nodup_cons] at hu
    rw [List.find?_cons]
    rcases List.mem_cons.mp h with rfl | h
    · simp [hr]
    · have hq : q.isAt key tool = false := by
        by_contra hq
        apply hu.1
        rw [isAt_iff.mp (by simpa using hq),← isAt_iff.mp hr]
        exact List.mem_map_of_mem h
      simp [hq,ih hu.2 h]

end Rows

/-- The database after a statement: a failed one changes nothing. -/
def Database.after (db : Database) : Except SQLError Database → Database
  | .ok db' => db'
  | .error _ => db

lemma ofPool_fst (db : Database) (res : Except SQLError Database) :
    (Store.ofPool db res).1 = { pool := some (db.after res) } := by
  cases res <;> rfl

namespace Mirrors
variable {U} {m : MemoryStore} {db : Database} (h : Mirrors m db) (key : PRKey) (tool : Bytes)
include h

lemma any_fingerprint (f : Bytes) : (db.findings.any fun r => r.ofPR key && r.fingerprint == f) =
    (m.findings.get key).any fun r => r.fingerprint == f := by
  rw [← List.any_filter,h.findings,List.any_map]
  rfl

section RecordFinding
variable {key} {tool} {id : Bytes} {c : InlineComment}

/-- A comment recorded before, when no id is left to learn, changes neither side. -/
lemma recordFinding_known {r : FindingRec}
    (hf : (m.findings.get key).find? (fun r => r.fingerprint = Fingerprint U tool c) = some r)
    (hid : r.externalID ≠ [] ∨ id = []) :
    Mirrors (m.record U key tool id c) (db.after (db.recordFinding U key tool id c)) := by
  have hsame : recordInto (newRec U tool id c) (m.findings.get key) = m.findings.get key :=
    recordInto_of_find hf hid
  have hget : ∀ k, (m.record U key tool id c).findings.get k = m.findings.get k := by
    intro k
    rw [MemoryStore.record,GoMap.get_insert_eq,hsame]
    split
    · next hk => rw [hk]
    · rfl
  have hany : (db.findings.any fun r => r.ofPR key && r.fingerprint == Fingerprint U tool c) =
      true := by
    rw [h.any_fingerprint,List.any_eq_true]
    exact ⟨r,List.mem_of_find?_eq_some hf,by simpa using List.find?_some hf⟩
  have hdb : db.after (db.recordFinding U key tool id c) = db := by
    rw [Database.recordFinding,hany]
    split <;> rfl
  rw [hdb]
  exact ⟨fun k => by rw [hget]; exact h.findings k,fun k => by rw [hget]; exact h.unresolved k,
    h.unique,h.summaryID,h.body⟩

/-- A comment not recorded before gets a record here and a row there. -/
lemma recordFinding_new (hclean : (Write.recordFinding key tool id c).clean = true)
    (hnew : ∀ r ∈ m.findings.get key, r.fingerprint ≠ Fingerprint U tool c)
    (hstart : int4Ok c.lineStart = true) (hend : int4Ok c.lineEnd = true)
    (hline : valid (firstLine c.body) = true) :
    Mirrors (m.record U key tool id c) (db.after (db.recordFinding U key tool id c)) := by
  simp only [Write.clean,Bool.and_eq_true] at hclean
  obtain ⟨⟨⟨⟨⟨hkey,htool⟩,hid⟩,hfile⟩,hsev⟩,hbody⟩ := hclean
  have happ : recordInto (newRec U tool id c) (m.findings.get key) =
      m.findings.get key ++ [newRec U tool id c] := recordInto_of_notMem hnew
  have hget : ∀ k, (m.record U key tool id c).findings.get k =
      m.findings.get k ++ if key = k then [newRec U tool id c] else [] := by
    intro k
    rw [MemoryStore.record,GoMap.get_insert_eq,happ]
    by_cases hk : k = key
    · subst hk
      simp
    · simp [hk,Ne.symm hk]
  have hany : (db.findings.any fun r => r.ofPR key && r.fingerprint == Fingerprint U tool c) =
      false := by
    rw [h.any_fingerprint,List.any_eq_false]
    simpa using hnew
  have hnul : nul ∉ c.body := by
    simp only [textOk,Bool.and_eq_true,decide_eq_true_eq] at hbody
    exact hbody.2
  have htitle : textOk (firstLine c.body) = true ∧ textOk (normalizeTitle U c.body) = true := by
    simp [textOk,hline,nul_notMem_firstLine hnul,nul_notMem_normalizeTitle U hnul]
  have hdb : db.after (db.recordFinding U key tool id c) =
      { db with findings := db.findings ++ [rowOf key (newRec U tool id c)] } := by
    rw [Database.recordFinding,hany]
    simp only [hkey,htool,hsev,hfile,htitle,hid,hstart,hend]
    rfl
  rw [hdb]
  refine ⟨fun k => ?_,fun k r hr => ?_,h.unique,h.summaryID,h.body⟩
  · rw [hget,List.filter_append,h.findings,List.map_append]
    congr 1
    by_cases hk : key = k
    · subst hk
      simp [ofPR_iff,rowOf]
    · have hno : (rowOf key (newRec U tool id c)).ofPR k = false := by
        by_contra ho
        exact hk (ofPR_iff.mp (by simpa using ho))
      simp [hk,hno]
  · rw [hget,List.mem_append] at hr
    rcases hr with hr | hr
    · exact h.unresolved k r hr
    · split at hr
      · rw [List.mem_singleton.mp hr]
        rfl
      · simp at hr

/-- A recorded comment keeps the backends together. -/
theorem recordFinding (hclean : (Write.recordFinding key tool id c).clean = true)
    (hfit : m.Fits U (.recordFinding key tool id c)) :
    Mirrors (m.record U key tool id c) (db.after (db.recordFinding U key tool id c)) := by
  unfold MemoryStore.Fits at hfit
  dsimp only at hfit
  cases hf : (m.findings.get key).find? fun r => r.fingerprint = Fingerprint U tool c with
  | some r =>
    rw [hf] at hfit
    exact h.recordFinding_known hf hfit
  | none =>
    rw [hf] at hfit
    obtain ⟨hstart,hend,hline⟩ := hfit
    exact h.recordFinding_new hclean (by simpa using hf) hstart hend hline

end RecordFinding

theorem putSummaryID {id : Bytes} (hclean : (Write.putSummaryID key tool id).clean = true) :
    Mirrors (m.putSummaryID key tool id) (db.after (db.putSummaryID key tool id)) := by
  let new : SummaryRow := ⟨key.provider,key.repoFullName,key.prNumber,tool,id,[]⟩
  let update : SummaryRow → SummaryRow := fun r => { r with externalCommentID := id }
  have hu : ∀ r, (update r).place = r.place := fun _ => rfl
  have hdb : db.after (db.putSummaryID key tool id) =
      { db with summaries := Database.upsert new update db.summaries } := by
    rw [Database.putSummaryID,if_pos (by simpa [Write.clean] using hclean)]
    rfl
  rw [hdb]
  refine ⟨h.findings,h.unresolved,upsert_unique hu h.unique,fun k t => ?_,fun k t => ?_⟩
  · rw [column_set hu (fun _ => rfl) rfl,h.summaryID,MemoryStore.putSummaryID,GoMap.get_insert_eq]
    exact if_congr eq_comm rfl rfl
  · rw [column_frame hu (fun _ => rfl) rfl]
    exact h.body k t

theorem putSection {body : Bytes} (hclean : (Write.putSection key tool body).clean = true) :
    Mirrors (m.putSection key tool body) (db.after (db.putSection key tool body)) := by
  let new : SummaryRow := ⟨key.provider,key.repoFullName,key.prNumber,tool,[],body⟩
  let update : SummaryRow → SummaryRow := fun r => { r with body := body }
  have hu : ∀ r, (update r).place = r.place := fun _ => rfl
  have hdb : db.after (db.putSection key tool body) =
      { db with summaries := Database.upsert new update db.summaries } := by
    rw [Database.putSection,if_pos (by simpa [Write.clean] using hclean)]
    rfl
  rw [hdb]
  refine ⟨h.findings,h.unresolved,upsert_unique hu h.unique,fun k t => ?_,fun k t => ?_⟩
  · rw [column_frame hu (fun _ => rfl) rfl]
    exact h.summaryID k t
  · rw [column_set hu (fun _ => rfl) rfl,h.body,MemoryStore.putSection,GoMap.get_insert_eq]
    simp only [new,SummaryRow.place,Prod.mk.injEq]
    by_cases hk : key = k
    · subst hk
      simp only [true_and,if_true,GoMap.get_insert_eq,eq_comm]
    · simp [hk,Ne.symm hk]

lemma hasFinding_eq (c : InlineComment) (hkey : keyOk key = true) (htool : textOk tool = true)
    (hfile : textOk c.file = true) (hsev : textOk c.severity = true) :
    db.hasFinding U key tool c = .ok (m.has U key tool c) := by
  rw [Database.hasFinding,if_pos (by simp [hkey,htool,hfile,hsev]),MemoryStore.has,
    ← scanFindings_rowOf U key tool c (h.unresolved key),← h.findings,List.filter_filter]
  congr 2
  funext r
  simp only [Bool.and_comm,Bool.and_left_comm,Bool.and_assoc]

lemma mem_sectionRows (x : Section) : x ∈ ((db.summaries.filter fun r => r.ofPR key && r.tool ≠ [] &&
      r.body ≠ []).map fun r => (⟨r.tool,r.body⟩ : Section)) ↔
    x.tool ≠ [] ∧ x.body ≠ [] ∧ (m.sections.get key).get x.tool = x.body := by
  obtain ⟨t,b⟩ := x
  rw [← h.body,List.mem_map]
  constructor
  · rintro ⟨r,hr,he⟩
    obtain ⟨rfl,rfl⟩ := Section.mk.inj he
    obtain ⟨hmem,hcond⟩ := List.mem_filter.mp hr
    simp only [Bool.and_eq_true,decide_eq_true_eq] at hcond
    obtain ⟨⟨hpr,ht⟩,hb⟩ := hcond
    have hat : r.isAt key r.tool = true := by simp [SummaryRow.isAt,hpr]
    exact ⟨ht,hb,by rw [find_of_mem h.unique hmem hat]; rfl⟩
  · rintro ⟨ht,hb,he⟩
    dsimp only at ht hb he
    cases hf : db.summaries.find? fun r => r.isAt key t with
    | none => exact absurd (by simpa [hf] using he.symm) hb
    | some r =>
      rw [hf] at he
      obtain rfl : r.body = b := he
      have hat := List.find?_some hf
      rw [SummaryRow.isAt,Bool.and_eq_true,beq_iff_eq] at hat
      obtain ⟨hpr,rfl⟩ := hat
      exact ⟨r,List.mem_filter.mpr ⟨List.mem_of_find?_eq_some hf,by simp [hpr,ht,hb]⟩,rfl⟩

/-- What mirrors a memory store answers like it. -/
theorem sameAnswers : SameAnswers U { mem := some m } { pool := some db } where
  hasFinding k t c hkey htool hfile hsev := (h.hasFinding_eq k t c hkey htool hfile hsev).symm
  listPostedFindings k hkey := by
    refine ⟨_,_,rfl,if_pos hkey,?_⟩
    have hl : (db.findings.filter fun r => r.ofPR k).map FindingRow.posted = m.list k := by
      rw [h.findings,List.map_map,MemoryStore.list]
      exact List.map_congr_left fun r _ => posted_rowOf k r
    rw [hl]
    exact (List.mergeSort_perm _ _).symm
  summaryID k t hkey htool := by
    change Except.ok (m.summaryID k t) = db.summaryID k t
    rw [Database.summaryID,if_pos (by simp [hkey,htool]),MemoryStore.summaryID,← h.summaryID]
    rfl
  allSections k hkey := by
    refine ⟨_,_,rfl,if_pos hkey,fun x => ?_⟩
    rw [List.mem_mergeSort,h.mem_sectionRows,MemoryStore.mem_allSections]

end Mirrors

/-- A memory store and a database that mirrors it, each as a store. -/
def SideBySide (s t : Store) : Prop :=
  ∃ m db, s = { mem := some m } ∧ t = { pool := some db } ∧ Mirrors m db

/-- A clean write that fits is taken the same way by both backends. -/
theorem write_sideBySide {s t : Store} (h : SideBySide s t) {e : Write} (hclean : e.clean = true)
    (hfit : ∀ m, s.mem = some m → m.Fits U e) : SideBySide (s.write U e) (t.write U e) := by
  obtain ⟨m,db,rfl,rfl,hm⟩ := h
  have hfit := hfit m rfl
  cases e with
  | recordFinding key tool id c =>
    exact ⟨_,_,rfl,ofPool_fst _ _,hm.recordFinding hclean hfit⟩
  | putSummaryID key tool id => exact ⟨_,_,rfl,ofPool_fst _ _,hm.putSummaryID key tool hclean⟩
  | putSection key tool body => exact ⟨_,_,rfl,ofPool_fst _ _,hm.putSection key tool hclean⟩

lemma sideBySide_empty (collate : Bytes → Bytes → Bool) :
    SideBySide Store.NewMemory (Store.New { collate := collate }) := by
  refine ⟨{},{ collate := collate },rfl,rfl,?_,?_,by simp,?_,?_⟩
  · intro key
    rfl
  · intro key r hr
    exact absurd hr List.not_mem_nil
  · intro key tool
    rfl
  · intro key tool
    rfl

/-- A comment that does not fit is no news to the database, be it known there or refused. -/
lemma Mirrors.recordFinding_unfit {m : MemoryStore} {db : Database} (h : Mirrors m db) {key : PRKey}
    {tool id : Bytes} {c : InlineComment} (hfit : ¬ m.Fits U (.recordFinding key tool id c)) :
    db.after (db.recordFinding U key tool id c) = db := by
  unfold Database.recordFinding
  split
  · next hok =>
    simp only [Bool.and_eq_true] at hok
    split
    · rfl
    · next hany =>
      exfalso
      apply hfit
      rw [h.any_fingerprint] at hany
      have hf : ((m.findings.get key).find? fun r => r.fingerprint = Fingerprint U tool c) = none := by
        simpa using hany
      unfold MemoryStore.Fits
      dsimp only
      rw [hf]
      have hline := hok.1.1.1.1.2
      simp only [textOk,Bool.and_eq_true] at hline
      exact ⟨hok.1.2,hok.2,hline.1⟩
  · rfl

/-- To the memory store it is: it lists one more record, or one empty id less. -/
lemma list_record_unfit {m : MemoryStore} {key : PRKey} {tool id : Bytes} {c : InlineComment}
    (hfit : ¬ m.Fits U (.recordFinding key tool id c)) :
    ¬ ((m.record U key tool id c).list key).Perm (m.list key) := by
  intro hperm
  rw [MemoryStore.list,MemoryStore.list,MemoryStore.record,GoMap.get_insert] at hperm
  cases hf : (m.findings.get key).find? fun r => r.fingerprint = Fingerprint U tool c with
  | none =>
    have hnew : ∀ r ∈ m.findings.get key, r.fingerprint ≠ Fingerprint U tool c := by
      simpa using hf
    have happ : recordInto (newRec U tool id c) (m.findings.get key) =
        m.findings.get key ++ [newRec U tool id c] := recordInto_of_notMem hnew
    rw [happ] at hperm
    simpa using hperm.length_eq
  | some r =>
    apply hfit
    unfold MemoryStore.Fits
    dsimp only
    rw [hf]
    by_contra hno
    rw [not_or,not_not] at hno
    have hcount : ((recordInto (newRec U tool id c) (m.findings.get key)).map
        FindingRec.externalID).count [] + 1 = ((m.findings.get key).map
          FindingRec.externalID).count [] := recordInto_emptyIDs hf hno.1 hno.2
    have hids := (hperm.map PostedFinding.externalCommentID).count_eq []
    rw [List.map_map,List.map_map] at hids
    change List.count [] (List.map FindingRec.externalID _) =
      List.count [] (List.map FindingRec.externalID _) at hids
    omega

/-- A clean write that does not fit tells the backends apart. -/
theorem unfit_told_apart {s t : Store} (h : SideBySide s t) {e : Write} (hclean : e.clean = true)
    (hfit : ¬ ∀ m, s.mem = some m → m.Fits U e) : ¬ SameAnswers U (s.write U e) (t.write U e) := by
  obtain ⟨m,db,rfl,rfl,hm⟩ := h
  cases e with
  | putSummaryID key tool id => exact absurd (fun _ _ => trivial) hfit
  | putSection key tool body => exact absurd (fun _ _ => trivial) hfit
  | recordFinding key tool id c =>
    have hfit : ¬ m.Fits U (.recordFinding key tool id c) := fun hf => hfit fun m' hm' => by
      obtain rfl : m = m' := Option.some.inj hm'
      exact hf
    intro hsame
    have hkey : keyOk key = true := by
      simp only [Write.clean,Bool.and_eq_true] at hclean
      exact hclean.1.1.1.1.1
    obtain ⟨l,l',hl,hl',hp⟩ := (hm.sameAnswers (U := U)).listPostedFindings key hkey
    obtain ⟨k,k',hk,hk',hq⟩ := hsame.listPostedFindings key hkey
    have hl : m.list key = l := Except.ok.inj hl
    have hk : (m.record U key tool id c).list key = k := Except.ok.inj hk
    have hsame' : l' = k' := by
      change (Store.ofPool db _).1.ListPostedFindings key = _ at hk'
      rw [ofPool_fst,hm.recordFinding_unfit U hfit,hl'] at hk'
      exact Except.ok.inj hk'
    apply list_record_unfit U hfit
    rw [hk,hl]
    exact hq.trans (hsame' ▸ hp.symm)

/-- The backends answer alike after every part of a run of clean writes exactly when each write of
the run fits the state it meets. -/
theorem backends_agree_iff (collate : Bytes → Bytes → Bool) {writes : List Write}
    (hclean : ∀ e ∈ writes, e.clean = true) :
    (∀ done, done <+: writes → SameAnswers U (Machine.run (Store.write U) Store.NewMemory done)
      (Machine.run (Store.write U) (Store.New { collate := collate }) done)) ↔
    Machine.Guarded (Store.write U) (fun s e => ∀ m, s.mem = some m → m.Fits U e)
      Store.NewMemory writes := by
  refine Machine.guarded_iff_alike (R := SideBySide) (Store.write U)
    (fun s t e he h hg => write_sideBySide U h (hclean e he) hg) ?_
    (fun s t e he h hg => unfit_told_apart U h (hclean e he) hg) (sideBySide_empty collate)
  rintro s t ⟨m,db,rfl,rfl,h⟩
  exact h.sameAnswers

section LateID

def storeKey : PRKey := ⟨KindGitLab,lit "acme/shop",12⟩

def unguardedMap : InlineComment where
  file := lit "cache.go"
  lineStart := 18
  lineEnd := 18
  body := lit "Map is written without the lock"
  severity := lit "block"

/-- The same comment recorded twice, first without an id. -/
def lateID : List Write :=
  [.recordFinding storeKey (lit "review") [] unguardedMap,
    .recordFinding storeKey (lit "review") (lit "note-7") unguardedMap]

/-- The memory store learns the id, the database keeps the empty one. -/
theorem lateID_told_apart :
    (∀ e ∈ lateID, e.clean = true) ∧
      ¬ SameAnswers Tables.plain (Machine.run (Store.write Tables.plain) Store.NewMemory lateID)
        (Machine.run (Store.write Tables.plain) (Store.New { collate := less }) lateID) := by
  refine ⟨by decide,fun h => ?_⟩
  obtain ⟨l,l',hl,hl',hp⟩ := h.listPostedFindings storeKey (by decide)
  have hids : (Except.ok (l.map PostedFinding.externalCommentID) : Except SQLError _) =
      .ok [lit "note-7"] := by
    rw [← Except.map,← hl]
    decide +kernel
  have hids' : (Except.ok (l'.map PostedFinding.externalCommentID) : Except SQLError _) = .ok [[]] := by
    rw [← Except.map,← hl']
    decide +kernel
  have hperm := hp.map PostedFinding.externalCommentID
  rw [Except.ok.inj hids,Except.ok.inj hids',List.perm_singleton] at hperm
  exact absurd hperm (by decide)

def summaryThenSection : List Write :=
  [.recordFinding storeKey (lit "review") (lit "note-7") unguardedMap,
    .putSummaryID storeKey [] (lit "note-1"),.putSection storeKey (lit "review") (lit "One finding.")]

theorem summaryThenSection_agrees :
    SameAnswers Tables.plain
      (Machine.run (Store.write Tables.plain) Store.NewMemory summaryThenSection)
      (Machine.run (Store.write Tables.plain) (Store.New { collate := less }) summaryThenSection) := by
  have hclean : ∀ e ∈ summaryThenSection, e.clean = true := by decide
  refine (backends_agree_iff Tables.plain less hclean).mpr ⟨?_,?_,?_,trivial⟩ _ List.prefix_rfl
  · rintro m ⟨⟩
    exact ⟨by decide,by decide,by decide⟩
  · exact fun m hm => trivial
  · exact fun m hm => trivial

end LateID

end Findings
