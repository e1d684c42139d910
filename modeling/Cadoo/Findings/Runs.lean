import Mathlib.Data.List.Forall2
import Cadoo.Findings.Backends

/-! Whole runs of a memory store: records are only ever appended, in the order in which their
fingerprints first came, and nothing of them changes but an empty external id. -/
namespace Findings
open Bytes Utf8 Vcs

variable (U : Tables)

def MemoryStore.write (m : MemoryStore) : Write → MemoryStore
  | .recordFinding key tool id c => m.record U key tool id c
  | .putSummaryID key tool id => m.putSummaryID key tool id
  | .putSection key tool body => m.putSection key tool body

lemma Store.write_ofMemory (m : MemoryStore) (w : Write) :
    Store.write U { mem := some m } w = { mem := some (m.write U w) } := by
  cases w <;> rfl

/-- A record later in a run: at most an empty id has been filled in. -/
structure FindingRec.Kept (r r' : FindingRec) : Prop where
  rest : r' = { r with externalID := r'.externalID }
  externalID : r.externalID ≠ [] → r' = r

namespace FindingRec.Kept
variable {r r' r'' : FindingRec}

lemma refl (r : FindingRec) : r.Kept r := ⟨rfl,fun _ => rfl⟩

lemma trans (h : r.Kept r') (h' : r'.Kept r'') : r.Kept r'' where
  rest := by
    rw [h'.rest,h.rest]
  externalID hne := by
    have he := h.externalID hne
    rw [he] at h'
    exact h'.externalID hne

lemma fingerprint (h : r.Kept r') : r'.fingerprint = r.fingerprint := by rw [h.rest]

lemma matchesComment (h : r.Kept r') (tool : Bytes) (c : InlineComment) :
    r'.matchesComment U tool c = r.matchesComment U tool c := by
  rw [h.rest]
  rfl

end FindingRec.Kept

lemma kept_self (rs : List FindingRec) : List.Forall₂ FindingRec.Kept rs rs :=
  List.forall₂_same.mpr fun r _ => FindingRec.Kept.refl r

lemma kept_trans {rs rs' rs'' : List FindingRec} (h : List.Forall₂ FindingRec.Kept rs rs')
    (h' : List.Forall₂ FindingRec.Kept rs' rs'') : List.Forall₂ FindingRec.Kept rs rs'' := by
  induction h generalizing rs'' with
  | nil => exact h'
  | cons h _ ih =>
    obtain ⟨r'',t'',hr,ht,rfl⟩ := List.forall₂_cons_left_iff.mp h'
    exact .cons (h.trans hr) (ih ht)

lemma kept_append {rs l old : List FindingRec} (h : List.Forall₂ FindingRec.Kept (rs ++ l) old) :
    ∃ old₁ old₂, old = old₁ ++ old₂ ∧ List.Forall₂ FindingRec.Kept rs old₁ ∧
      List.Forall₂ FindingRec.Kept l old₂ := by
  induction rs generalizing old with
  | nil => exact ⟨[],old,rfl,.nil,h⟩
  | cons r rs ih =>
    obtain ⟨r',t',hr,ht,rfl⟩ := List.forall₂_cons_left_iff.mp h
    obtain ⟨old₁,old₂,rfl,h₁,h₂⟩ := ih ht
    exact ⟨r' :: old₁,old₂,rfl,.cons hr h₁,h₂⟩

lemma kept_fingerprints {rs rs' : List FindingRec} (h : List.Forall₂ FindingRec.Kept rs rs') :
    rs'.map FindingRec.fingerprint = rs.map FindingRec.fingerprint := by
  induction h with
  | nil => rfl
  | cons h _ ih => rw [List.map_cons,List.map_cons,h.fingerprint,ih]

lemma kept_any {rs rs' : List FindingRec} (h : List.Forall₂ FindingRec.Kept rs rs') (tool : Bytes)
    (c : InlineComment) : rs'.any (fun r => r.matchesComment U tool c) =
      rs.any fun r => r.matchesComment U tool c := by
  induction h with
  | nil => rfl
  | cons h _ ih => rw [List.any_cons,List.any_cons,h.matchesComment,ih]

/-- Recording a fingerprint that is there keeps every record in its place. -/
lemma recordInto_kept {rec : FindingRec} {rs : List FindingRec}
    (h : rec.fingerprint ∈ rs.map FindingRec.fingerprint) :
    List.Forall₂ FindingRec.Kept rs (recordInto rec rs) := by
  induction rs with
  | nil => simp at h
  | cons r rs ih =>
    rw [recordInto]
    split
    · split
      · next hid => exact .cons ⟨rfl,fun hne => absurd hid.1 hne⟩ (kept_self rs)
      · exact kept_self (r :: rs)
    · next hne =>
      rw [List.map_cons,List.mem_cons] at h
      exact .cons (.refl r) (ih (h.resolve_left fun he => hne he.symm))

/-- The records whose fingerprint is neither taken nor comes earlier. -/
def firstOf : List Bytes → List FindingRec → List FindingRec
  | _, [] => []
  | taken, r :: rs =>
    if r.fingerprint ∈ taken then firstOf taken rs
    else r :: firstOf (taken ++ [r.fingerprint]) rs

lemma firstOf_nodup (taken : List Bytes) (rs : List FindingRec) :
    ((firstOf taken rs).map FindingRec.fingerprint).Nodup ∧
      ∀ f ∈ (firstOf taken rs).map FindingRec.fingerprint, f ∉ taken := by
  induction rs generalizing taken with
  | nil => simp [firstOf]
  | cons r rs ih =>
    rw [firstOf]
    split
    · exact ih taken
    · next hr =>
      obtain ⟨hnodup,hfree⟩ := ih (taken ++ [r.fingerprint])
      rw [List.map_cons,List.nodup_cons]
      refine ⟨⟨fun hin => hfree _ hin (by simp),hnodup⟩,?_⟩
      intro f hf
      rcases List.mem_cons.mp hf with rfl | hf
      · exact hr
      · exact fun hin => hfree f hf (by simp [hin])

/-- Recording one after the other: what was there is kept, and the first records of new
fingerprints follow it. -/
theorem foldl_recordInto (recs rs : List FindingRec) : ∃ old added,
    recs.foldl (fun rs r => recordInto r rs) rs = old ++ added ∧
      List.Forall₂ FindingRec.Kept rs old ∧
      List.Forall₂ FindingRec.Kept (firstOf (rs.map FindingRec.fingerprint) recs) added := by
  induction recs generalizing rs with
  | nil => exact ⟨rs,[],(List.append_nil rs).symm,kept_self rs,.nil⟩
  | cons r recs ih =>
    obtain ⟨old,added,heq,hold,hadded⟩ := ih (recordInto r rs)
    rw [List.foldl_cons,firstOf]
    split
    · next hin =>
      have hkept := recordInto_kept hin
      rw [kept_fingerprints hkept] at hadded
      exact ⟨old,added,heq,kept_trans hkept hold,hadded⟩
    · next hfree =>
      have hnew : recordInto r rs = rs ++ [r] := recordInto_of_notMem fun q hq he =>
        hfree (he ▸ List.mem_map_of_mem hq)
      rw [hnew,List.map_append] at hadded
      rw [hnew] at heq hold ⊢
      obtain ⟨old₁,old₂,rfl,h₁,h₂⟩ := kept_append hold
      obtain ⟨r',t',hr,ht,rfl⟩ := List.forall₂_cons_left_iff.mp h₂
      obtain rfl := List.forall₂_nil_left_iff.mp ht
      refine ⟨old₁,r' :: added,?_,h₁,.cons hr hadded⟩
      rw [heq,List.append_assoc]
      rfl

/-- The record that a write makes on a pull request. -/
def recording (key : PRKey) : Write → Option FindingRec
  | .recordFinding k tool id c => if k = key then some (newRec U tool id c) else none
  | _ => none

/-- What a run records on a pull request. -/
def recordings (key : PRKey) (writes : List Write) : List FindingRec :=
  writes.filterMap (recording U key)

lemma write_findings (m : MemoryStore) (w : Write) (key : PRKey) :
    (m.write U w).findings.get key =
      (recording U key w).toList.foldl (fun rs r => recordInto r rs) (m.findings.get key) := by
  cases w with
  | recordFinding k tool id c =>
    rw [MemoryStore.write,MemoryStore.record,GoMap.get_insert_eq,recording]
    by_cases hk : key = k
    · subst hk
      simp
    · simp [hk,Ne.symm hk]
  | putSummaryID k tool id => rfl
  | putSection k tool body => rfl

lemma run_findings (m : MemoryStore) (writes : List Write) (key : PRKey) :
    (Machine.run (MemoryStore.write U) m writes).findings.get key =
      (recordings U key writes).foldl (fun rs r => recordInto r rs) (m.findings.get key) := by
  induction writes generalizing m with
  | nil => rfl
  | cons w writes ih =>
    have hcons : recordings U key (w :: writes) =
        (recording U key w).toList ++ recordings U key writes := by
      rw [recordings,List.filterMap_cons]
      cases recording U key w <;> rfl
    rw [Machine.run_cons,ih,write_findings,hcons,List.foldl_append]

/-- Over a whole run, from any store: the records there stay, each in its place and with at most an
empty id filled in; behind them stand the first recordings of the new fingerprints in their order;
and what was known stays known. -/
theorem run_keeps_records (m : MemoryStore) (writes : List Write) (key : PRKey) :
    ∃ old added, (Machine.run (MemoryStore.write U) m writes).findings.get key = old ++ added ∧
      List.Forall₂ FindingRec.Kept (m.findings.get key) old ∧
      List.Forall₂ FindingRec.Kept (firstOf ((m.findings.get key).map FindingRec.fingerprint)
        (recordings U key writes)) added ∧
      (added.map FindingRec.fingerprint).Nodup ∧
      (∀ f ∈ added.map FindingRec.fingerprint, f ∉ (m.findings.get key).map FindingRec.fingerprint) ∧
      ∀ tool c, m.has U key tool c = true →
        (Machine.run (MemoryStore.write U) m writes).has U key tool c = true := by
  obtain ⟨old,added,heq,hold,hadded⟩ := foldl_recordInto (recordings U key writes)
    (m.findings.get key)
  rw [← run_findings] at heq
  obtain ⟨hnodup,hfree⟩ := firstOf_nodup ((m.findings.get key).map FindingRec.fingerprint)
    (recordings U key writes)
  rw [← kept_fingerprints hadded] at hnodup hfree
  refine ⟨old,added,heq,hold,hadded,hnodup,hfree,fun tool c hhas => ?_⟩
  rw [MemoryStore.has] at hhas ⊢
  rw [heq,List.any_append,kept_any U hold,hhas,Bool.true_or]

end Findings
