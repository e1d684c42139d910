import Cadoo.Kb.Store

/-! Runs of the knowledge base: whatever the order in which the statements of the calls take turns, a document has the
chunks of its body, and a search finds documents as they stand. -/
namespace Kb
open Bytes Utf8 Steps
open Findings (textOk)

section Invariant
variable {V : Type} (vectorOk : V → Bool) (P : Bytes → V → Prop)

/-- A row is a chunk of a document, with a vector that is one of its text's. -/
structure ChunkRow.Good (doc : DocumentRow) (r : ChunkRow V) : Prop where
  document : r.documentID = doc.id
  repo : r.repoKey = doc.key.repoKey
  text : textOk r.text = true
  vector : vectorOk r.embedding = true
  embeds : P r.text r.embedding

/-- Rows are the first chunks of a document, numbered. -/
structure Begins (doc : DocumentRow) (rows : List (ChunkRow V)) (rest : List Bytes) : Prop where
  texts : rows.map ChunkRow.text ++ rest = chunksOf doc.body
  ordinals : rows.map ChunkRow.ordinal = List.range rows.length
  good : ∀ r ∈ rows, r.Good vectorOk P doc

/-- Every document has just the chunks of its body. -/
structure Tables.Whole (t : Tables V) : Prop where
  keys : (t.documents.map DocumentRow.key).Nodup
  ids : (t.documents.map DocumentRow.id).Nodup
  filled : ∀ d ∈ t.documents, chunksOf d.body ≠ [] ∧ Begins vectorOk P d (t.chunksOfDocument d.id) []
  owned : ∀ r ∈ t.chunks, ∃ d ∈ t.documents, d.id = r.documentID

/-- What a transaction knows of the chunks. -/
def Stage.Fits (t : Tables V) (doc : DocumentRow) : Stage V → Prop
  | .upserted => True
  | .deleted gone => gone = t.chunksOfDocument doc.id
  | .inserting gone written todo => gone = t.chunksOfDocument doc.id ∧
    Begins vectorOk P doc written (todo.map Prod.fst) ∧ ∀ w ∈ todo, P w.1 w.2

/-- The tables and the open transactions: each has a document of its own. -/
structure Consistent (t : Tables V) (n : ℕ) (open' : List (DocumentRow × Stage V)) : Prop where
  whole : t.Whole vectorOk P
  locks : (open'.map fun w => w.1.key).Nodup
  same : ∀ x ∈ t.documents ++ open'.map Prod.fst, ∀ y ∈ t.documents ++ open'.map Prod.fst, x.id = y.id ↔ x.key = y.key
  drawn : ∀ x ∈ t.documents ++ open'.map Prod.fst, x.id < n
  fits : ∀ w ∈ open', chunksOf w.1.body ≠ [] ∧ w.2.Fits vectorOk P t w.1

end Invariant

section Commit
variable {V : Type} {vectorOk : V → Bool} {P : Bytes → V → Prop} {t : Tables V} {n : ℕ} {doc : DocumentRow}
  {gone written : List (ChunkRow V)} {rest : List (DocumentRow × Stage V)}

lemma mem_putDocument {d : DocumentRow} : d ∈ t.putDocument doc ↔ d = doc ∨ d ∈ t.documents ∧ d.key ≠ doc.key := by
  rw [Tables.putDocument]
  split
  · next h =>
    obtain ⟨q,hq,hkey⟩ := List.any_eq_true.mp h
    rw [List.mem_map]
    constructor
    · rintro ⟨x,hx,rfl⟩
      split
      · exact .inl rfl
      · next hne => exact .inr ⟨hx,hne⟩
    · rintro (rfl | ⟨hd,hne⟩)
      · exact ⟨q,hq,if_pos (of_decide_eq_true hkey)⟩
      · exact ⟨d,hd,if_neg hne⟩
  · next h =>
    rw [List.mem_append,List.mem_singleton,or_comm]
    refine or_congr_right ⟨fun hd => ⟨hd,fun heq => h ?_⟩,And.left⟩
    exact List.any_eq_true.mpr ⟨d,hd,decide_eq_true heq⟩

lemma putDocument_keys (t : Tables V) (doc : DocumentRow) : (t.putDocument doc).map DocumentRow.key = t.documents.map DocumentRow.key ∨
    doc.key ∉ t.documents.map DocumentRow.key ∧
      (t.putDocument doc).map DocumentRow.key = t.documents.map DocumentRow.key ++ [doc.key] := by
  rw [Tables.putDocument]
  split
  · refine .inl ?_
    rw [List.map_map]
    refine List.map_congr_left fun d _ => ?_
    rw [Function.comp_apply]
    split
    · next h => exact h.symm
    · rfl
  · next h =>
    refine .inr ⟨fun hmem => h ?_,List.map_append⟩
    obtain ⟨d,hd,heq⟩ := List.mem_map.mp hmem
    exact List.any_eq_true.mpr ⟨d,hd,decide_eq_true heq⟩

variable [DecidableEq V]

/-- A commit replaces the chunks of its document and no others. -/
lemma chunks_commit (hgone : gone = t.chunksOfDocument doc.id) (hwritten : ∀ r ∈ written, r.documentID = doc.id) (id : ℕ) :
    (t.commit doc gone written).chunksOfDocument id = if id = doc.id then written else t.chunksOfDocument id := by
  have hkept : t.chunks.filter (· ∉ gone) = t.chunks.filter fun r => r.documentID ≠ doc.id := by
    refine List.filter_congr fun r hr => decide_eq_decide.mpr (not_congr ?_)
    rw [hgone,Tables.chunksOfDocument,List.mem_filter,decide_eq_true_eq]
    exact and_iff_right hr
  rw [Tables.chunksOfDocument,Tables.commit,hkept,List.filter_append,List.filter_filter]
  split
  · next h =>
    have hnone : ∀ r ∈ t.chunks, ¬(decide (r.documentID = id) && decide (r.documentID ≠ doc.id)) = true := by
      intro r _
      simp [h]
    rw [List.filter_eq_nil_iff.mpr hnone,List.nil_append]
    exact List.filter_eq_self.mpr fun r hr => decide_eq_true (h ▸ hwritten r hr)
  · next h =>
    have hother : ∀ r ∈ written, ¬decide (r.documentID = id) = true := by
      intro r hr heq
      exact h ((of_decide_eq_true heq).symm.trans (hwritten r hr))
    rw [List.filter_eq_nil_iff.mpr hother,List.append_nil]
    refine List.filter_congr fun r _ => ?_
    by_cases hr : r.documentID = id
    · simp [hr,h]
    · simp [hr]

lemma mem_chunks_commit {r : ChunkRow V} (h : r ∈ (t.commit doc gone written).chunks) : r ∈ written ∨ r ∈ t.chunks ∧ r ∉ gone := by
  rw [Tables.commit,List.mem_append,List.mem_filter,decide_eq_true_eq] at h
  exact h.symm

/-- When its document is complete, a transaction can be committed. -/
theorem Consistent.commit (h : Consistent vectorOk P t n ((doc,.inserting gone written []) :: rest)) :
    Consistent vectorOk P (t.commit doc gone written) n rest := by
  obtain ⟨hbody,hgone,hwritten,-⟩ := h.fits _ List.mem_cons_self
  have hdoc (r : ChunkRow V) (hr : r ∈ written) : r.documentID = doc.id := (hwritten.good r hr).document
  have hsub : ∀ x ∈ t.putDocument doc ++ rest.map Prod.fst,
      x ∈ t.documents ++ ((doc,Stage.inserting gone written []) :: rest).map Prod.fst := by
    intro x hx
    rw [List.mem_append,mem_putDocument] at hx
    obtain (rfl | ⟨hx,-⟩) | hx := hx
    · exact List.mem_append_right _ List.mem_cons_self
    · exact List.mem_append_left _ hx
    · exact List.mem_append_right _ (List.mem_cons_of_mem _ hx)
  have hsame : ∀ x ∈ t.putDocument doc ++ rest.map Prod.fst, ∀ y ∈ t.putDocument doc ++ rest.map Prod.fst,
      x.id = y.id ↔ x.key = y.key := fun x hx y hy => h.same x (hsub x hx) y (hsub y hy)
  have hkeys : ((t.putDocument doc).map DocumentRow.key).Nodup := by
    obtain heq | ⟨hnew,heq⟩ := putDocument_keys t doc
    · rw [heq]
      exact h.whole.keys
    · rw [heq]
      exact List.nodup_append'.mpr ⟨h.whole.keys,List.nodup_singleton _,List.disjoint_singleton.mpr hnew⟩
  have hput {d : DocumentRow} (hd : d ∈ t.putDocument doc) : d ∈ t.putDocument doc ++ rest.map Prod.fst :=
    List.mem_append_left _ hd
  have hother {d : DocumentRow} (hd : d ∈ t.putDocument doc ++ rest.map Prod.fst) (hne : d.key ≠ doc.key) : d.id ≠ doc.id :=
    fun heq => hne ((hsame d hd doc (hput (mem_putDocument.mpr (.inl rfl)))).mp heq)
  refine ⟨⟨hkeys,?_,fun d hd => ?_,fun r hr => ?_⟩,?_,hsame,fun x hx => h.drawn x (hsub x hx),fun w hw => ?_⟩
  · refine List.Nodup.map_on (fun x hx y hy heq => ?_) (List.Nodup.of_map _ hkeys)
    exact List.inj_on_of_nodup_map hkeys hx hy ((hsame x (hput hx) y (hput hy)).mp heq)
  · rw [chunks_commit hgone hdoc]
    obtain rfl | ⟨hold,hne⟩ := mem_putDocument.mp hd
    · rw [if_pos rfl]
      exact ⟨hbody,hwritten⟩
    · rw [if_neg (hother (hput hd) hne)]
      exact h.whole.filled d hold
  · obtain hr | ⟨hr,hkept⟩ := mem_chunks_commit hr
    · exact ⟨doc,mem_putDocument.mpr (.inl rfl),(hdoc r hr).symm⟩
    · obtain ⟨d,hd,hid⟩ := h.whole.owned r hr
      refine ⟨d,mem_putDocument.mpr (.inr ⟨hd,fun heq => hkept ?_⟩),hid⟩
      have hids := (h.same d (List.mem_append_left _ hd) doc (List.mem_append_right _ List.mem_cons_self)).mpr heq
      rw [hgone,Tables.chunksOfDocument,List.mem_filter]
      exact ⟨hr,decide_eq_true (hid.symm.trans hids)⟩
  · exact (List.nodup_cons.mp h.locks).2
  · obtain ⟨hne,hfits⟩ := h.fits w (List.mem_cons_of_mem _ hw)
    have hkey : w.1.key ≠ doc.key := fun heq =>
      (List.nodup_cons.mp h.locks).1 (List.mem_map.mpr ⟨w,hw,heq⟩)
    have hid := hother (List.mem_append_right _ (List.mem_map_of_mem hw)) hkey
    have hsee : (t.commit doc gone written).chunksOfDocument w.1.id = t.chunksOfDocument w.1.id := by
      rw [chunks_commit hgone hdoc,if_neg hid]
    refine ⟨hne,?_⟩
    obtain ⟨d,stage⟩ := w
    cases stage with
    | upserted => exact trivial
    | deleted gone' => exact hfits.trans hsee.symm
    | inserting gone' written' todo => exact ⟨hfits.1.trans hsee.symm,hfits.2⟩

end Commit

/-- Whatever an embedder answers to, its vectors are those of the texts. -/
def Statement.Honest {V : Type} (P : Bytes → V → Prop) (stmt : Statement V) : Prop := ∀ embedder texts vectors,
  stmt = .embed embedder → embedder texts = some vectors → vectors.length = texts.length →
    ∀ w ∈ texts.zip vectors, P w.1 w.2

section Send
variable {V : Type} {vectorOk : V → Bool} {P : Bytes → V → Prop} {t : Tables V} {n : ℕ}
  {doc : DocumentRow} {stage : Stage V} {front rest : List (DocumentRow × Stage V)}

lemma Consistent.perm (h : Consistent vectorOk P t n front) (hperm : front.Perm rest) : Consistent vectorOk P t n rest := by
  have hdocs : ∀ x, x ∈ t.documents ++ rest.map Prod.fst → x ∈ t.documents ++ front.map Prod.fst := by
    intro x hx
    rw [List.mem_append] at hx ⊢
    exact hx.imp_right fun hx => (hperm.symm.map Prod.fst).subset hx
  exact ⟨h.whole,(hperm.map _).nodup_iff.mp h.locks,fun x hx y hy => h.same x (hdocs x hx) y (hdocs y hy),
    fun x hx => h.drawn x (hdocs x hx),fun w hw => h.fits w (hperm.mem_iff.mpr hw)⟩

/-- A transaction can be rolled back. -/
lemma Consistent.rollback (h : Consistent vectorOk P t n (front ++ rest)) : Consistent vectorOk P t n rest := by
  have hdocs : ∀ x, x ∈ t.documents ++ rest.map Prod.fst → x ∈ t.documents ++ (front ++ rest).map Prod.fst := by
    intro x hx
    rw [List.mem_append] at hx ⊢
    refine hx.imp_right fun hx => ?_
    rw [List.map_append]
    exact List.mem_append_right _ hx
  refine ⟨h.whole,?_,fun x hx y hy => h.same x (hdocs x hx) y (hdocs y hy),fun x hx => h.drawn x (hdocs x hx),
    fun w hw => h.fits w (List.mem_append_right _ hw)⟩
  have hlocks := h.locks
  rw [List.map_append] at hlocks
  exact (List.nodup_append'.mp hlocks).2.1

lemma Consistent.draw (h : Consistent vectorOk P t n rest) : Consistent vectorOk P t (n+1) rest :=
  ⟨h.whole,h.locks,h.same,fun x hx => Nat.lt_succ_of_lt (h.drawn x hx),h.fits⟩

/-- A transaction goes on. -/
lemma Consistent.proceed {stage' : Stage V} (h : Consistent vectorOk P t n ((doc,stage) :: rest))
    (hfits : stage'.Fits vectorOk P t doc) : Consistent vectorOk P t n ((doc,stage') :: rest) := by
  refine ⟨h.whole,h.locks,h.same,h.drawn,List.forall_mem_cons.mpr ⟨?_,fun w hw => h.fits w (List.mem_cons_of_mem _ hw)⟩⟩
  exact ⟨(h.fits _ List.mem_cons_self).1,hfits⟩

lemma idOf_cases (t : Tables V) (key : DocumentKey) (n : ℕ) : (∃ d ∈ t.documents, d.key = key ∧ t.idOf key n = d.id) ∨
    (∀ d ∈ t.documents, d.key ≠ key) ∧ t.idOf key n = n := by
  rw [Tables.idOf]
  split
  · next d hd =>
    have hkey := List.find?_some hd
    exact .inl ⟨d,List.mem_of_find?_eq_some hd,of_decide_eq_true hkey,rfl⟩
  · next hd =>
    rw [List.find?_eq_none] at hd
    exact .inr ⟨fun d hmem heq => hd d hmem (decide_eq_true heq),rfl⟩

/-- An upsert whose key nobody has locked. -/
lemma Consistent.upsert (h : Consistent vectorOk P t n rest) {key : DocumentKey} {body : Bytes}
    (hfree : ∀ w ∈ rest, w.1.key ≠ key) (hbody : chunksOf body ≠ []) :
    Consistent vectorOk P t (n+1) ((⟨t.idOf key n,key,body⟩,.upserted) :: rest) := by
  have hid : ∀ x ∈ t.documents ++ rest.map Prod.fst, x.id = t.idOf key n ↔ x.key = key := by
    intro x hx
    obtain ⟨d,hd,hkey,heq⟩ | ⟨hnew,heq⟩ := idOf_cases t key n
    · rw [heq,← hkey]
      exact h.same x hx d (List.mem_append_left _ hd)
    · rw [heq]
      refine iff_of_false (Nat.ne_of_lt (h.drawn x hx)) ?_
      obtain hx | hx := List.mem_append.mp hx
      · exact hnew x hx
      · obtain ⟨w,hw,rfl⟩ := List.mem_map.mp hx
        exact hfree w hw
  have hlt : t.idOf key n < n+1 := by
    obtain ⟨d,hd,-,heq⟩ | ⟨-,heq⟩ := idOf_cases t key n
    · rw [heq]
      exact Nat.lt_succ_of_lt (h.drawn d (List.mem_append_left _ hd))
    · rw [heq]
      exact Nat.lt_succ_self n
  have hcases {x : DocumentRow}
      (hx : x ∈ t.documents ++ ((⟨t.idOf key n,key,body⟩,Stage.upserted) :: rest).map Prod.fst) :
      x = ⟨t.idOf key n,key,body⟩ ∨ x ∈ t.documents ++ rest.map Prod.fst := by
    rw [List.map_cons,List.mem_append,List.mem_cons] at hx
    rw [List.mem_append]
    exact or_left_comm.mp hx
  refine ⟨h.whole,?_,fun x hx y hy => ?_,fun x hx => ?_,
    List.forall_mem_cons.mpr ⟨⟨hbody,trivial⟩,h.fits⟩⟩
  · rw [List.map_cons,List.nodup_cons]
    refine ⟨fun hmem => ?_,h.locks⟩
    obtain ⟨w,hw,heq⟩ := List.mem_map.mp hmem
    exact hfree w hw heq
  · obtain rfl | hx := hcases hx
    · obtain rfl | hy := hcases hy
      · exact iff_of_true rfl rfl
      · rw [eq_comm,hid y hy,eq_comm]
    · obtain rfl | hy := hcases hy
      · exact hid x hx
      · exact h.same x hx y hy
  · obtain rfl | hx := hcases hx
    · exact hlt
    · exact Nat.lt_succ_of_lt (h.drawn x hx)

/-- A commit keeps the documents' ids. -/
lemma Consistent.put (h : Consistent vectorOk P t n ((doc,stage) :: rest)) {d : DocumentRow} (hd : d ∈ t.documents) :
    ∃ e ∈ t.putDocument doc, e.id = d.id ∧ e.key = d.key := by
  by_cases hkey : d.key = doc.key
  · refine ⟨doc,mem_putDocument.mpr (.inl rfl),?_,hkey.symm⟩
    exact (h.same doc (List.mem_append_right _ List.mem_cons_self) d (List.mem_append_left _ hd)).mpr hkey.symm
  · exact ⟨d,mem_putDocument.mpr (.inr ⟨hd,hkey⟩),rfl,rfl⟩

variable [DecidableEq V]

/-- The next chunk is inserted. -/
lemma Begins.insert {gone written : List (ChunkRow V)} {text : Bytes} {vector : V} {texts : List Bytes}
    (h : Begins vectorOk P doc written (text :: texts)) (hembeds : P text vector)
    (hadmits : t.admits vectorOk gone written ⟨n,doc.id,doc.key.repoKey,written.length,text,vector⟩ = true) :
    Begins vectorOk P doc (written ++ [⟨n,doc.id,doc.key.repoKey,written.length,text,vector⟩]) texts := by
  rw [Tables.admits,Bool.and_eq_true,Bool.and_eq_true,Bool.and_eq_true,Bool.and_eq_true] at hadmits
  obtain ⟨⟨⟨⟨htext,-⟩,-⟩,hvector⟩,-⟩ := hadmits
  refine ⟨?_,?_,List.forall_mem_append.mpr ⟨h.good,List.forall_mem_singleton.mpr ⟨rfl,rfl,htext,hvector,hembeds⟩⟩⟩
  · rw [List.map_append,List.map_singleton,List.append_assoc,List.singleton_append]
    exact h.texts
  · rw [List.map_append,h.ordinals,List.length_append,List.length_singleton,List.range_succ]
    rfl

variable {c : Call V} {stmt : Statement V} {locked : Bool} {phase : Phase V} {t' : Tables V} {n' : ℕ}

/-- What one statement does: the call fails, begins, locks its row, goes on with it or commits. -/
lemma send_cases (h : c.send vectorOk t locked n stmt = some (phase,t',n')) : (∀ r, c.phase ≠ .done r) ∧
    ((∃ e, phase = .done (.error e) ∧ t' = t ∧ (n' = n ∨ n' = n+1)) ∨
    (phase = .begun ∧ c.phase = .called ∧ chunksOf c.body ≠ [] ∧ t' = t ∧ n' = n) ∨
    (phase = .working (t.idOf c.key n) .upserted ∧ c.phase = .begun ∧ locked = false ∧ t' = t ∧ n' = n+1) ∨
    (∃ id stage stage', phase = .working id stage' ∧ c.phase = .working id stage ∧ t' = t ∧ (n' = n ∨ n' = n+1) ∧
      (stmt.Honest P → stage.Fits vectorOk P t ⟨id,c.key,c.body⟩ → stage'.Fits vectorOk P t ⟨id,c.key,c.body⟩)) ∨
    ∃ id gone written, (phase = .done (.ok id) ∨ phase = .done (.error (.commit true))) ∧
      c.phase = .working id (.inserting gone written []) ∧ t' = t.commit ⟨id,c.key,c.body⟩ gone written ∧ n' = n) := by
  obtain ⟨key,body,before⟩ := c
  unfold Call.send at h
  dsimp only at h
  have failed {e : IngestError} {k : ℕ} (hk : k = n ∨ k = n+1) (heq : some (Phase.done (.error e),t,k) = some (phase,t',n')) :
      ∃ e, phase = .done (.error e) ∧ t' = t ∧ (n' = n ∨ n' = n+1) := by
    obtain ⟨rfl,rfl,rfl⟩ : Phase.done (.error e) = phase ∧ t = t' ∧ k = n' := by
      simpa only [Option.some_inj,Prod.mk.injEq] using heq
    exact ⟨e,rfl,rfl,hk⟩
  split at h
  · refine ⟨nofun,?_⟩
    split at h
    · exact .inl (failed (.inl rfl) h)
    · next hbody =>
      split at h
      · cases h
        exact .inr (.inl ⟨rfl,rfl,hbody,rfl,rfl⟩)
      · exact .inl (failed (.inl rfl) h)
  · refine ⟨nofun,?_⟩
    split at h
    · exact .inl (failed (.inl rfl) h)
    · split at h
      · cases h
      · next hfree =>
        cases h
        exact .inr (.inr (.inl ⟨rfl,rfl,Bool.eq_false_iff.mpr hfree,rfl,rfl⟩))
  · refine ⟨nofun,?_⟩
    split at h
    · cases h
      exact .inr (.inr (.inr (.inl ⟨_,_,_,rfl,rfl,rfl,.inl rfl,fun _ _ => rfl⟩)))
    · exact .inl (failed (.inl rfl) h)
  · next id gone embedder =>
    refine ⟨nofun,?_⟩
    split at h
    · exact .inl (failed (.inl rfl) h)
    · next vectors hanswer =>
      split at h
      · next hlen =>
        cases h
        refine .inr (.inr (.inr (.inl ⟨_,_,_,rfl,rfl,rfl,.inl rfl,fun hhonest hgone => ⟨hgone,⟨?_,rfl,?_⟩,?_⟩⟩)))
        · exact List.map_fst_zip (Nat.le_of_eq hlen.symm)
        · exact List.forall_mem_nil _
        · exact hhonest embedder _ vectors rfl hanswer hlen
      · exact .inl (failed (.inl rfl) h)
  · next id gone written text vector todo ok =>
    refine ⟨nofun,?_⟩
    split at h
    · next hok =>
      rw [Bool.and_eq_true] at hok
      cases h
      refine .inr (.inr (.inr (.inl ⟨_,_,_,rfl,rfl,rfl,.inr rfl,fun _ hfits => ?_⟩)))
      obtain ⟨hgone,hwritten,hembeds⟩ := hfits
      obtain ⟨hvector,hembeds⟩ := List.forall_mem_cons.mp hembeds
      exact ⟨hgone,hwritten.insert hvector hok.2,hembeds⟩
    · exact .inl (failed (.inr rfl) h)
  · next id gone written ok answered =>
    refine ⟨nofun,?_⟩
    split at h
    · cases h
      refine .inr (.inr (.inr (.inr ⟨id,gone,written,?_,rfl,rfl,rfl⟩)))
      cases answered
      · exact .inr rfl
      · exact .inl rfl
    · exact .inl (failed (.inl rfl) h)
  · cases h

end Send

/-- The transaction of a call has been carried out. -/
def Call.Committed {V : Type} (c : Call V) : Prop := (∃ id, c.phase = .done (.ok id)) ∨ c.phase = .done (.error (.commit true))

namespace State
variable {V : Type} [DecidableEq V] (vectorOk : V → Bool) (P : Bytes → V → Prop)

/-- The documents are whole, each is one that was there or that a call has put there, and what a call has answered to
is there. -/
structure Sound (initial : List DocumentRow) (s : State V) : Prop where
  consistent : Consistent vectorOk P s.tables s.nextID (s.calls.filterMap Call.working)
  begun : ∀ c ∈ s.calls, c.phase = .begun → chunksOf c.body ≠ []
  answered : ∀ c ∈ s.calls, ∀ id, c.phase = .done (.ok id) → ∃ d ∈ s.tables.documents, d.id = id ∧ d.key = c.key
  written : ∀ d ∈ s.tables.documents, d ∈ initial ∨ ∃ c ∈ s.calls, c.key = d.key ∧ c.body = d.body ∧ c.Committed

variable {vectorOk P} {initial : List DocumentRow} {s s' : State V}

/-- What one statement of a call keeps of the tables and the open transactions. -/
lemma consistent_send (h : s.Sound vectorOk P initial) {i : ℕ} {c : Call V} {stmt : Statement V} {phase : Phase V}
    {t' : Tables V} {n' : ℕ} (hc : s.calls[i]? = some c) (hhonest : stmt.Honest P)
    (hsend : c.send vectorOk s.tables (s.locked c.key) s.nextID stmt = some (phase,t',n')) :
    Consistent vectorOk P t' n' ((s.calls.set i { c with phase := phase }).filterMap Call.working) := by
  obtain ⟨rest,hbefore,hafter⟩ := filterMap_set_perm (f := Call.working) hc
  have hnow := h.consistent.perm hbefore
  have hmem : c ∈ s.calls := List.mem_of_getElem? hc
  suffices hnext : Consistent vectorOk P t' n' ((Call.working { c with phase := phase }).toList ++ rest) from
    hnext.perm (hafter _).symm
  obtain ⟨-,hcases⟩ := send_cases (P := P) hsend
  obtain ⟨key,body,before⟩ := c
  obtain ⟨e,rfl,rfl,hn⟩ | ⟨rfl,rfl,-,rfl,rfl⟩ | ⟨rfl,rfl,hfree,rfl,rfl⟩ | ⟨id,stage,stage',rfl,rfl,rfl,hn,hfits⟩ |
    ⟨id,gone,written,hphase,rfl,rfl,rfl⟩ := hcases
  · have hrest := hnow.rollback
    obtain rfl | rfl := hn
    · exact hrest
    · exact hrest.draw
  · exact hnow
  · have hbody := h.begun _ hmem rfl
    refine Consistent.upsert hnow (fun w hw heq => ?_) hbody
    -- the lock would be held
    have hlocked : s.locked key = true :=
      List.any_eq_true.mpr ⟨w,hbefore.mem_iff.mpr hw,decide_eq_true heq⟩
    rw [hlocked] at hfree
    cases hfree
  · have hstage := (hnow.fits _ List.mem_cons_self).2
    have hnext := hnow.proceed (hfits hhonest hstage)
    obtain rfl | rfl := hn
    · exact hnext
    · exact hnext.draw
  · obtain rfl | rfl := hphase
    · exact hnow.commit
    · exact hnow.commit

/-- What one statement of a call does to the documents. -/
lemma send_documents (h : s.Sound vectorOk P initial) {i : ℕ} {c : Call V} {stmt : Statement V} {phase : Phase V}
    {t' : Tables V} {n' : ℕ} (hc : s.calls[i]? = some c)
    (hsend : c.send vectorOk s.tables (s.locked c.key) s.nextID stmt = some (phase,t',n')) :
    t'.documents = s.tables.documents ∧ (∀ id, phase ≠ .done (.ok id)) ∨
      ∃ id, t'.documents = s.tables.putDocument ⟨id,c.key,c.body⟩ ∧
        (phase = .done (.ok id) ∨ phase = .done (.error (.commit true))) ∧
        ∀ d ∈ s.tables.documents, ∃ e ∈ t'.documents, e.id = d.id ∧ e.key = d.key := by
  obtain ⟨-,hcases⟩ := send_cases (P := P) hsend
  obtain ⟨e,rfl,rfl,-⟩ | ⟨rfl,-,-,rfl,-⟩ | ⟨rfl,-,-,rfl,-⟩ | ⟨id,stage,stage',rfl,-,rfl,-⟩ |
    ⟨id,gone,written,hphase,hbefore,rfl,-⟩ := hcases
  · exact .inl ⟨rfl,nofun⟩
  · exact .inl ⟨rfl,nofun⟩
  · exact .inl ⟨rfl,nofun⟩
  · exact .inl ⟨rfl,nofun⟩
  · obtain ⟨rest,hperm,-⟩ := filterMap_set_perm (f := Call.working) hc
    have hopen : c.working = some (⟨id,c.key,c.body⟩,.inserting gone written []) := by
      rw [Call.working,hbefore]
    rw [hopen] at hperm
    exact .inr ⟨id,rfl,hphase,fun d hd => (h.consistent.perm hperm).put hd⟩

/-- What every step keeps. -/
theorem step_sound {e : Event V} (hstep : step vectorOk s e = some s') (hhonest : ∀ i stmt, e = .send i stmt → stmt.Honest P)
    (h : s.Sound vectorOk P initial) : s'.Sound vectorOk P initial := by
  cases e with
  | call key body =>
    obtain rfl := Option.some.inj hstep
    have hmem {c : Call V} (hc : c ∈ s.calls ++ [(⟨key,body,.called⟩ : Call V)]) : c ∈ s.calls ∨ c = ⟨key,body,.called⟩ :=
      (List.mem_append.mp hc).imp_right List.mem_singleton.mp
    refine ⟨?_,fun c hc hphase => ?_,fun c hc id hphase => ?_,fun d hd => ?_⟩
    · have hopen : (s.calls ++ [(⟨key,body,.called⟩ : Call V)]).filterMap Call.working = s.calls.filterMap Call.working := by
        rw [List.filterMap_append]
        exact List.append_nil _
      rw [hopen]
      exact h.consistent
    · obtain hc | rfl := hmem hc
      · exact h.begun c hc hphase
      · cases hphase
    · obtain hc | rfl := hmem hc
      · exact h.answered c hc id hphase
      · cases hphase
    · refine (h.written d hd).imp_right ?_
      rintro ⟨c,hc,hrest⟩
      exact ⟨c,List.mem_append_left _ hc,hrest⟩
  | send i stmt =>
    obtain ⟨c,hc,hstep⟩ := Option.bind_eq_some_iff.mp hstep
    obtain ⟨⟨phase,t',n'⟩,hsend,rfl⟩ := Option.map_eq_some_iff.mp hstep
    have hconsistent := consistent_send h hc (hhonest i stmt rfl) hsend
    have hmem : c ∈ s.calls := List.mem_of_getElem? hc
    obtain ⟨hopen,hcases⟩ := send_cases (P := P) hsend
    have hdocuments := send_documents h hc hsend
    obtain ⟨front,back,hcalls,hset⟩ := split_at hc
    have hafter {q : Call V} (hq : q ∈ s.calls.set i { c with phase := phase }) :
        q ∈ s.calls ∨ q = { c with phase := phase } := List.mem_or_eq_of_mem_set hq
    have hnew : { c with phase := phase } ∈ s.calls.set i { c with phase := phase } := by
      rw [hset]
      exact List.mem_append_right _ List.mem_cons_self
    -- a call that is done stays as it is
    have hdone {q : Call V} (hq : q ∈ s.calls) (hcommitted : q.Committed) : q ∈ s.calls.set i { c with phase := phase } := by
      rw [hcalls,List.mem_append,List.mem_cons] at hq
      rw [hset,List.mem_append,List.mem_cons]
      refine hq.imp_right (Or.imp_left fun heq => ?_)
      rw [heq] at hcommitted
      obtain ⟨id,hid⟩ | herr := hcommitted
      · exact absurd hid (hopen _)
      · exact absurd herr (hopen _)
    refine ⟨hconsistent,fun q hq hphase => ?_,fun q hq id hphase => ?_,fun d hd => ?_⟩
    · obtain hq | rfl := hafter hq
      · exact h.begun q hq hphase
      · dsimp only at hphase
        subst hphase
        obtain ⟨e,he,-⟩ | ⟨-,-,hbody,-⟩ | ⟨he,-⟩ | ⟨id,stage,stage',he,-⟩ | ⟨id,gone,written,he | he,-⟩ := hcases
        · cases he
        · exact hbody
        · cases he
        · cases he
        · cases he
        · cases he
    · obtain hq | rfl := hafter hq
      · obtain ⟨d,hd,hid,hkey⟩ := h.answered q hq id hphase
        obtain ⟨heq,-⟩ | ⟨id',-,-,hkept⟩ := hdocuments
        · exact ⟨d,heq ▸ hd,hid,hkey⟩
        · obtain ⟨e,he,heid,hekey⟩ := hkept d hd
          exact ⟨e,he,heid.trans hid,hekey.trans hkey⟩
      · obtain ⟨-,hnone⟩ | ⟨id',hput,hresult,-⟩ := hdocuments
        · exact absurd hphase (hnone id)
        · dsimp only at hphase
          subst hphase
          obtain heq | heq := hresult
          · cases heq
            exact ⟨_,hput ▸ mem_putDocument.mpr (.inl rfl),rfl,rfl⟩
          · cases heq
    · have hold (hd : d ∈ s.tables.documents) : d ∈ initial ∨
          ∃ q ∈ s.calls.set i { c with phase := phase }, q.key = d.key ∧ q.body = d.body ∧ q.Committed := by
        refine (h.written d hd).imp_right ?_
        rintro ⟨q,hq,hkey,hbody,hcommitted⟩
        exact ⟨q,hdone hq hcommitted,hkey,hbody,hcommitted⟩
      obtain ⟨heq,-⟩ | ⟨id,hput,hresult,-⟩ := hdocuments
      · exact hold (heq ▸ hd)
      · dsimp only at hd
        rw [hput] at hd
        obtain rfl | ⟨hd,-⟩ := mem_putDocument.mp hd
        · exact .inr ⟨_,hnew,rfl,rfl,hresult.imp_left fun heq => ⟨id,heq⟩⟩
        · exact hold hd

end State

/-- One result of a search. -/
structure Hit (D : Type) where
  documentID : ℕ
  chunkID : ℕ
  title : Bytes
  source : Bytes
  text : Bytes
  distance : D

inductive SearchError where
  | embedQuery
  | vectors (returned : ℕ)
  | kbSearch

section Search
variable {V D : Type} (dist : V → V → D)

/-- The rows of a repository among those an index scan visits, joined with their documents. -/
def Tables.join (t : Tables V) (visited : List (ChunkRow V)) (repoKey : Bytes) (v : V) : List (Hit D) :=
  (visited.filter fun c => c.repoKey = repoKey).flatMap fun c =>
    (t.documents.filter fun d => d.id = c.documentID).map fun d =>
      ⟨d.id,c.id,d.key.title,d.key.source,c.text,dist v c.embedding⟩

/-- A hit is a chunk of a document as it stands. -/
def Hit.Current (t : Tables V) (P : Bytes → V → Prop) (repoKey : Bytes) (v : V) (hit : Hit D) : Prop :=
  ∃ d ∈ t.documents, d.id = hit.documentID ∧ d.key = ⟨repoKey,hit.source,hit.title⟩ ∧ hit.text ∈ chunksOf d.body ∧
    ∃ w, P hit.text w ∧ hit.distance = dist v w

variable {dist} {vectorOk : V → Bool} {P : Bytes → V → Prop} {t : Tables V} {repoKey : Bytes}

lemma join_current (ht : t.Whole vectorOk P) {visited : List (ChunkRow V)} (hsub : visited ⊆ t.chunks) {v : V} {hit : Hit D}
    (h : hit ∈ t.join dist visited repoKey v) : hit.Current dist t P repoKey v := by
  obtain ⟨c,hc,h⟩ := List.mem_flatMap.mp h
  obtain ⟨d,hd,rfl⟩ := List.mem_map.mp h
  rw [List.mem_filter,decide_eq_true_eq] at hc hd
  obtain ⟨hd,hid⟩ := hd
  obtain ⟨-,hfilled⟩ := ht.filled d hd
  have hrow : c ∈ t.chunksOfDocument d.id := List.mem_filter.mpr ⟨hsub hc.1,decide_eq_true hid.symm⟩
  have hgood := hfilled.good c hrow
  have htexts := hfilled.texts
  rw [List.append_nil] at htexts
  refine ⟨d,hd,rfl,?_,htexts ▸ List.mem_map_of_mem hrow,c.embedding,hgood.embeds,rfl⟩
  rw [← hc.2,hgood.repo]

variable [LinearOrder D]

/-- The index on the vectors may pass over rows: `visit` are those a scan comes to. -/
def Search (dist : V → V → D) (t : Tables V) (visit : List (ChunkRow V) → List (ChunkRow V)) (embedder : List Bytes → Option (List V))
    (ok : Bool) (repoKey query : Bytes) (topK : ℤ) : Except SearchError (List (Hit D)) :=
  if query = [] then .ok []
  else
    match embedder [query] with
    | none => .error .embedQuery
    | some [v] =>
      if ok && textOk repoKey then
        .ok (((t.join dist (visit t.chunks) repoKey v).mergeSort fun a b => a.distance ≤ b.distance).take
          (if topK ≤ 0 then 5 else topK.toNat))
      else .error .kbSearch
    | some vectors => .error (.vectors vectors.length)

variable {visit : List (ChunkRow V) → List (ChunkRow V)} {embedder : List Bytes → Option (List V)} {ok : Bool}
  {query : Bytes} {topK : ℤ} {hits : List (Hit D)}

/-- A search gives the nearest rows it has come to, all of them chunks of documents as they stand. -/
theorem Search_current (ht : t.Whole vectorOk P) (hvisit : visit t.chunks ⊆ t.chunks)
    (h : Search dist t visit embedder ok repoKey query topK = .ok hits) :
    hits.length ≤ (if topK ≤ 0 then 5 else topK.toNat) ∧ hits.Pairwise (fun a b => a.distance ≤ b.distance) ∧
      (hits = [] ∨ ∃ v, embedder [query] = some [v] ∧ ∀ hit ∈ hits, hit.Current dist t P repoKey v) := by
  rw [Search] at h
  split at h
  · cases h
    exact ⟨Nat.zero_le _,.nil,.inl rfl⟩
  · split at h
    · cases h
    · next v hanswer =>
      split at h
      · cases h
        refine ⟨List.length_take_le _ _,?_,.inr ⟨v,hanswer,fun hit hmem => ?_⟩⟩
        · have hsorted := @List.pairwise_mergeSort _ (fun a b : Hit D => decide (a.distance ≤ b.distance))
            (fun a b c hab hbc => decide_eq_true (le_trans (of_decide_eq_true hab) (of_decide_eq_true hbc)))
            (fun a b => by
              rw [Bool.or_eq_true,decide_eq_true_eq,decide_eq_true_eq]
              exact le_total _ _) (t.join dist (visit t.chunks) repoKey v)
          exact (hsorted.imp fun hab => of_decide_eq_true hab).take
        · exact join_current ht hvisit (List.mem_mergeSort.mp (List.mem_of_mem_take hmem))
      · cases h
    · cases h

end Search

section Run
variable {V D : Type} {vectorOk : V → Bool} {P : Bytes → V → Prop} {t : Tables V} {n : ℕ}

lemma Tables.Whole.consistent (h : t.Whole vectorOk P) (hn : ∀ d ∈ t.documents, d.id < n) : Consistent vectorOk P t n [] := by
  refine ⟨h,List.nodup_nil,fun x hx y hy => ?_,fun x hx => ?_,List.forall_mem_nil _⟩
  · rw [List.map_nil,List.append_nil] at hx hy
    constructor
    · intro hid
      rw [List.inj_on_of_nodup_map h.ids hx hy hid]
    · intro hkey
      rw [List.inj_on_of_nodup_map h.keys hx hy hkey]
  · rw [List.map_nil,List.append_nil] at hx
    exact hn x hx

variable [DecidableEq V] [LinearOrder D]

/-- However the statements of the calls take turns, and wherever they fail: each document has all the chunks of its body
and no others, it is one that was there or one that a call has committed, what a call has answered to is there, and a
search finds documents as they stand. -/
theorem run_ingests {es : List (Event V)} {s : State V} (hrun : run (State.step vectorOk) ⟨t,n,[]⟩ es = some s)
    (ht : t.Whole vectorOk P) (hn : ∀ d ∈ t.documents, d.id < n)
    (hhonest : ∀ i stmt, .send i stmt ∈ es → stmt.Honest P) :
    s.tables.Whole vectorOk P ∧
    (∀ d ∈ s.tables.documents, d ∈ t.documents ∨ ∃ c ∈ s.calls, c.key = d.key ∧ c.body = d.body ∧ c.Committed) ∧
    (∀ c ∈ s.calls, ∀ id, c.phase = .done (.ok id) → ∃ d ∈ s.tables.documents, d.id = id ∧ d.key = c.key) ∧
    ∀ (dist : V → V → D) visit embedder ok repoKey query topK hits, visit s.tables.chunks ⊆ s.tables.chunks →
      Search dist s.tables visit embedder ok repoKey query topK = .ok hits →
      hits.length ≤ (if topK ≤ 0 then 5 else topK.toNat) ∧ hits.Pairwise (fun a b => a.distance ≤ b.distance) ∧
        (hits = [] ∨ ∃ v, embedder [query] = some [v] ∧ ∀ hit ∈ hits, hit.Current dist s.tables P repoKey v) := by
  have hstart : State.Sound vectorOk P t.documents ⟨t,n,[]⟩ :=
    ⟨ht.consistent hn,List.forall_mem_nil _,List.forall_mem_nil _,fun d hd => .inl hd⟩
  have hsound := run_history (I := fun past s => (∀ i stmt, Event.send i stmt ∈ past → stmt.Honest P) →
    State.Sound vectorOk P t.documents s) hrun (fun _ => hstart)
    (fun past s e s' hstep hpast hhonest => State.step_sound hstep
      (fun i stmt heq => hhonest i stmt (heq ▸ List.mem_append_right _ (List.mem_singleton_self e)))
      (hpast fun i stmt hmem => hhonest i stmt (List.mem_append_left _ hmem))) hhonest
  exact ⟨hsound.consistent.whole,hsound.written,hsound.answered,fun dist visit embedder ok repoKey query topK hits hvisit =>
    Search_current hsound.consistent.whole hvisit⟩

end Run

section Example

/-- An embedder whose vectors are the lengths of the texts. -/
def lengthEmbedder (texts : List Bytes) : Option (List ℕ) := some (texts.map List.length)

def exampleKey : DocumentKey := ⟨lit "github:o/r",lit "adr",lit "Queue"⟩

/-- Two versions of one document: the second waits for the first, whose answer is lost, and fails. -/
def exampleIngests : List (Event ℕ) :=
  [.call exampleKey (lit "one"),.call exampleKey (lit "two"),.send 1 (.begin true),.send 0 (.begin true),
    .send 0 (.upsertDoc true),.send 0 (.deletePrior true),.send 0 (.embed lengthEmbedder),.send 0 (.insertChunk true),
    .send 0 (.commit true false),.send 1 (.upsertDoc true),.send 1 (.deletePrior true),.send 1 (.embed lengthEmbedder),
    .send 1 (.insertChunk false)]

theorem exampleIngests_whole : ∃ s : State ℕ, run (State.step fun _ => true) ⟨⟨[],[]⟩,0,[]⟩ exampleIngests = some s ∧
    s.tables.documents.map DocumentRow.body = [lit "one"] ∧
    s.tables.Whole (fun _ => true) fun text v => v = text.length := by
  have hdocs : (run (State.step fun _ => true) ⟨⟨[],[]⟩,0,[]⟩ exampleIngests).map
      (fun s => s.tables.documents.map DocumentRow.body) = some [lit "one"] := by decide +kernel
  obtain ⟨s,hrun,hbodies⟩ := Option.map_eq_some_iff.mp hdocs
  have hempty : (⟨[],[]⟩ : Tables ℕ).Whole (fun _ => true) fun text v => v = text.length :=
    ⟨List.nodup_nil,List.nodup_nil,List.forall_mem_nil _,List.forall_mem_nil _⟩
  refine ⟨s,hrun,hbodies,(@run_ingests ℕ ℕ _ _ _ _ _ _ exampleIngests s hrun hempty (List.forall_mem_nil _) ?_).1⟩
  -- what the embedder answers is the lengths
  intro i stmt hmem embedder texts vectors heq hanswer hlen w hw
  have hembedder : i = 0 ∧ embedder = lengthEmbedder ∨ i = 1 ∧ embedder = lengthEmbedder := by
    subst heq
    simpa [exampleIngests] using hmem
  rw [hembedder.elim And.right And.right,lengthEmbedder,Option.some_inj] at hanswer
  obtain ⟨k,hk,rfl⟩ := List.getElem_of_mem hw
  rw [List.getElem_zip]
  simp only [← hanswer,List.getElem_map]

end Example
end Kb
