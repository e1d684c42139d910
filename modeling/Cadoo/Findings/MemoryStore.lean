import Mathlib.Data.List.Sort
import Cadoo.Lib.GoMap
import Cadoo.Findings.Key

/-! The in-memory backend of the posted-state store. -/
namespace Findings
open Bytes Utf8 Vcs

structure PRKey where
  provider : Bytes
  repoFullName : Bytes
  prNumber : ℤ
  deriving DecidableEq

/-- The prompt-friendly view of a posted comment. -/
structure PostedFinding where
  tool : Bytes
  file : Bytes
  lineStart : ℤ
  lineEnd : ℤ
  severity : Bytes
  title : Bytes
  externalCommentID : Bytes
  structuralKey : Bytes
  deriving DecidableEq

/-- One tool's rendered fragment of the consolidated comment. -/
structure Section where
  tool : Bytes
  body : Bytes
  deriving DecidableEq

/-- The tool under which the consolidated comment itself is kept. -/
def WrapperToolKey : Bytes := []

structure FindingRec where
  tool : Bytes
  file : Bytes
  severity : Bytes
  structuralKey : Bytes
  fingerprint : Bytes := []
  normalizedTitle : Bytes
  title : Bytes
  lineStart : ℤ := 0
  lineEnd : ℤ := 0
  externalID : Bytes
  resolved : Bool := false
  line : ℤ := 0
  deriving DecidableEq

structure MemoryStore where
  findings : GoMap PRKey (List FindingRec) := ∅
  summaries : GoMap (PRKey × Bytes) Bytes := ∅
  sections : GoMap PRKey (GoMap Bytes Bytes) := ∅
  lastReviewedSHA : Bytes := []

/-- Whether a record stands for the same finding as a comment. -/
def FindingRec.matchesComment (U : Tables) (r : FindingRec) (tool : Bytes) (c : InlineComment) :
    Bool :=
  if r.tool ≠ tool ∨ r.file ≠ c.file ∨ r.severity ≠ c.severity then false
  else if r.resolved = false then
    r.structuralKey == StructuralKey U tool c ||
      SimilarTitleThreshold ≤ jaccard (titleTokens U c.body) (tokenize U r.normalizedTitle)
  else
    (0 < r.line && 0 < c.lineStart && c.lineStart ≤ r.line && r.line ≤ c.lineEnd) ||
      ResolvedSuppressThreshold ≤ jaccard (titleTokens U c.body) (tokenize U r.normalizedTitle)

/-- The record made of a posted comment. -/
def newRec (U : Tables) (tool externalID : Bytes) (c : InlineComment) : FindingRec where
  tool := tool
  file := c.file
  severity := c.severity
  structuralKey := StructuralKey U tool c
  fingerprint := Fingerprint U tool c
  normalizedTitle := normalizeTitle U c.body
  title := firstLine c.body
  lineStart := c.lineStart
  lineEnd := c.lineEnd
  externalID := externalID

/-- Recording into a list of records: the first with the same fingerprint keeps its place and at
most learns its external id; without one the record goes to the end. -/
def recordInto (rec : FindingRec) : List FindingRec → List FindingRec
  | [] => [rec]
  | existing :: rest =>
    if existing.fingerprint = rec.fingerprint then
      if existing.externalID = [] ∧ rec.externalID ≠ [] then
        { existing with externalID := rec.externalID } :: rest
      else existing :: rest
    else existing :: recordInto rec rest

def FindingRec.posted (r : FindingRec) : PostedFinding where
  tool := r.tool
  file := r.file
  lineStart := r.lineStart
  lineEnd := r.lineEnd
  severity := r.severity
  title := r.title
  externalCommentID := r.externalID
  structuralKey := r.structuralKey

namespace MemoryStore
variable (U : Tables) (m : MemoryStore) (key : PRKey) (tool : Bytes)

def has (c : InlineComment) : Bool :=
  (m.findings.get key).any fun r => r.matchesComment U tool c

def record (externalID : Bytes) (c : InlineComment) : MemoryStore :=
  let recs := recordInto (newRec U tool externalID c) (m.findings.get key)
  { m with findings := m.findings.insert key recs }

def list : List PostedFinding := (m.findings.get key).map FindingRec.posted

def summaryID : Bytes := m.summaries.get (key,tool)

def putSummaryID (id : Bytes) : MemoryStore :=
  { m with summaries := m.summaries.insert (key,tool) id }

def putSection (body : Bytes) : MemoryStore :=
  { m with sections := m.sections.insert key ((m.sections.get key).insert tool body) }

/-- The non-empty sections of a pull request in the order of their tool names. -/
def allSections : List Section :=
  let bucket := m.sections.get key
  let tools := bucket.keys.filter fun t => t ≠ WrapperToolKey ∧ bucket.get t ≠ []
  (tools.insertionSort fun a b => less b a = false).map fun t => ⟨t,bucket.get t⟩

lemma mem_allSections {x : Section} : x ∈ m.allSections key ↔
    x.tool ≠ [] ∧ x.body ≠ [] ∧ (m.sections.get key).get x.tool = x.body := by
  obtain ⟨t,b⟩ := x
  unfold allSections
  dsimp only
  rw [List.mem_map]
  constructor
  · rintro ⟨t',ht',he⟩
    obtain ⟨rfl,rfl⟩ := Section.mk.inj he
    rw [(List.perm_insertionSort _ _).mem_iff,List.mem_filter] at ht'
    obtain ⟨h₁,h₂⟩ := of_decide_eq_true ht'.2
    exact ⟨h₁,h₂,rfl⟩
  · rintro ⟨ht,hb,rfl⟩
    refine ⟨t,?_,rfl⟩
    rw [(List.perm_insertionSort _ _).mem_iff,List.mem_filter]
    refine ⟨?_,decide_eq_true ⟨ht,hb⟩⟩
    rw [← AList.mem_keys]
    by_contra hn
    exact hb (GoMap.get_of_notMem _ _ hn)

end MemoryStore

section Record
variable (U : Tables) (tool : Bytes)

/-- A record made of a comment stands for that comment. -/
lemma newRec_matches (id : Bytes) (c : InlineComment) :
    (newRec U tool id c).matchesComment U tool c = true := by
  simp [FindingRec.matchesComment,newRec]

lemma recordInto_fingerprints (rec : FindingRec) (rs : List FindingRec) :
    (recordInto rec rs).map FindingRec.fingerprint =
      if rec.fingerprint ∈ rs.map FindingRec.fingerprint then rs.map FindingRec.fingerprint
      else rs.map FindingRec.fingerprint ++ [rec.fingerprint] := by
  induction rs with
  | nil => simp [recordInto]
  | cons r rs ih =>
    rw [recordInto]
    split
    · next h => split <;> simp [h]
    · next h =>
      rw [List.map_cons,ih]
      have hne : rec.fingerprint ≠ r.fingerprint := fun he => h he.symm
      simp only [List.map_cons,List.mem_cons,hne,false_or]
      split <;> simp

lemma mem_recordInto_fingerprints {f : Bytes} {rec : FindingRec} {rs : List FindingRec} :
    f ∈ (recordInto rec rs).map FindingRec.fingerprint ↔
      f ∈ rs.map FindingRec.fingerprint ∨ f = rec.fingerprint := by
  rw [recordInto_fingerprints]
  split
  · next h =>
    refine ⟨.inl,?_⟩
    rintro (hf | rfl)
    · exact hf
    · exact h
  · simp

/-- What a predicate blind to external ids sees of the records after one more is recorded. -/
lemma recordInto_any {f : FindingRec → Bool} (hf : ∀ r id, f { r with externalID := id } = f r)
    (rec : FindingRec) (rs : List FindingRec) : (recordInto rec rs).any f =
      (rs.any f || (decide (rec.fingerprint ∉ rs.map FindingRec.fingerprint) && f rec)) := by
  induction rs with
  | nil => simp [recordInto]
  | cons r rs ih =>
    rw [recordInto]
    split
    · next h =>
      have hin : rec.fingerprint ∈ (r :: rs).map FindingRec.fingerprint := by simp [h]
      simp only [hin,not_true_eq_false,decide_false,Bool.false_and,Bool.or_false]
      split
      · rw [List.any_cons,List.any_cons,hf]
      · rfl
    · next h =>
      have hne : rec.fingerprint ≠ r.fingerprint := fun he => h he.symm
      simp only [List.any_cons,ih,List.map_cons,List.mem_cons,hne,false_or,Bool.or_assoc]

/-- The comments of a batch that get a record of their own, given the fingerprints taken. -/
def storedAnew : List Bytes → List InlineComment → List InlineComment
  | _, [] => []
  | taken, d :: ds =>
    if Fingerprint U tool d ∈ taken then storedAnew taken ds
    else d :: storedAnew (taken ++ [Fingerprint U tool d]) ds

/-- A comment gets a record where its fingerprint is free and does not come earlier in the batch. -/
lemma mem_storedAnew {taken : List Bytes} {ds : List InlineComment} {d : InlineComment} :
    d ∈ storedAnew U tool taken ds ↔ Fingerprint U tool d ∉ taken ∧ ∃ pre post,
      ds = pre ++ d :: post ∧ ∀ e ∈ pre, Fingerprint U tool e ≠ Fingerprint U tool d := by
  induction ds generalizing taken with
  | nil => simp [storedAnew]
  | cons e ds ih =>
    rw [storedAnew,exists_split_cons]
    split
    · next he =>
      rw [ih]
      constructor
      · rintro ⟨hfree,h⟩
        exact ⟨hfree,.inr ⟨fun hed => hfree (hed ▸ he),h⟩⟩
      · rintro ⟨hfree,rfl | ⟨-,h⟩⟩
        · exact absurd he hfree
        · exact ⟨hfree,h⟩
    · next he =>
      rw [List.mem_cons,ih,List.mem_append,List.mem_singleton,not_or]
      constructor
      · rintro (rfl | ⟨⟨hfree,hne⟩,h⟩)
        · exact ⟨he,.inl rfl⟩
        · exact ⟨hfree,.inr ⟨fun hed => hne hed.symm,h⟩⟩
      · rintro ⟨hfree,rfl | ⟨hne,h⟩⟩
        · exact .inl rfl
        · exact .inr ⟨⟨hfree,fun hed => hne hed.symm⟩,h⟩

/-- A batch recorded one comment after the other, each with its id. -/
def recordBatch (batch : List (Bytes × InlineComment)) (rs : List FindingRec) : List FindingRec :=
  batch.foldl (fun rs b => recordInto (newRec U tool b.1 b.2) rs) rs

/-- After a batch is recorded, a comment is known by an old record or by a comment that got a
record of its own. -/
theorem recordBatch_any (batch : List (Bytes × InlineComment)) (rs : List FindingRec)
    (c : InlineComment) : (recordBatch U tool batch rs).any (fun r => r.matchesComment U tool c) =
      (rs.any (fun r => r.matchesComment U tool c) ||
        (storedAnew U tool (rs.map FindingRec.fingerprint) (batch.map Prod.snd)).any
          fun d => (newRec U tool [] d).matchesComment U tool c) := by
  induction batch generalizing rs with
  | nil => simp [recordBatch,storedAnew]
  | cons b batch ih =>
    have hfp : (newRec U tool b.1 b.2).fingerprint = Fingerprint U tool b.2 := rfl
    have hm : (newRec U tool b.1 b.2).matchesComment U tool c =
        (newRec U tool [] b.2).matchesComment U tool c := rfl
    rw [recordBatch,List.foldl_cons,← recordBatch,ih,
      recordInto_any (f := fun r => r.matchesComment U tool c) (fun _ _ => rfl),
      recordInto_fingerprints,hfp,hm,List.map_cons,storedAnew]
    by_cases h : Fingerprint U tool b.2 ∈ rs.map FindingRec.fingerprint
    · simp [-List.mem_map,h]
    · simp [-List.mem_map,h,Bool.or_assoc]

lemma mem_recordInto {rec r : FindingRec} {rs : List FindingRec} (h : r ∈ recordInto rec rs) :
    (r = rec ∧ rec.fingerprint ∉ rs.map FindingRec.fingerprint) ∨
      ∃ r₀ ∈ rs, r = { r₀ with externalID := r.externalID } ∧ (r₀.externalID ≠ [] → r = r₀) := by
  induction rs with
  | nil => exact .inl ⟨by simpa [recordInto] using h,by simp⟩
  | cons e rs ih =>
    rw [recordInto] at h
    have hold : ∀ r₀ ∈ e :: rs, ∃ r₁ ∈ e :: rs, r₀ = { r₁ with externalID := r₀.externalID } ∧
        (r₁.externalID ≠ [] → r₀ = r₁) := fun r₀ hr => ⟨r₀,hr,rfl,fun _ => rfl⟩
    split at h
    · split at h
      · next hid =>
        rcases List.mem_cons.mp h with rfl | h
        · exact .inr ⟨e,by simp,rfl,fun hne => absurd hid.1 hne⟩
        · exact .inr (hold r (by simp [h]))
      · exact .inr (hold r h)
    · next hne =>
      rcases List.mem_cons.mp h with rfl | h
      · exact .inr (hold r (by simp))
      · rcases ih h with ⟨rfl,hfp⟩ | ⟨r₀,hr,he⟩
        · refine .inl ⟨rfl,?_⟩
          rw [List.map_cons,List.mem_cons,not_or]
          exact ⟨fun he => hne he.symm,hfp⟩
        · exact .inr ⟨r₀,by simp [hr],he⟩

/-- A record with an id of its own is never touched again. -/
lemma mem_recordInto_of_mem {rec r : FindingRec} {rs : List FindingRec} (h : r ∈ rs)
    (hid : r.externalID ≠ []) : r ∈ recordInto rec rs := by
  induction rs with
  | nil => simp at h
  | cons e rs ih =>
    rw [recordInto]
    rcases List.mem_cons.mp h with rfl | h
    · split
      · rw [if_neg fun he => hid he.1]
        simp
      · simp
    · split
      · split <;> simp [h]
      · simp [ih h]

lemma mem_recordInto_self {rec : FindingRec} {rs : List FindingRec}
    (h : rec.fingerprint ∉ rs.map FindingRec.fingerprint) : rec ∈ recordInto rec rs := by
  induction rs with
  | nil => simp [recordInto]
  | cons e rs ih =>
    rw [List.map_cons,List.mem_cons,not_or] at h
    rw [recordInto,if_neg fun he => h.1 he.symm]
    simp [ih h.2]

lemma mem_recordBatch_of_mem {batch : List (Bytes × InlineComment)} {rs : List FindingRec}
    {r : FindingRec} (h : r ∈ rs) (hid : r.externalID ≠ []) : r ∈ recordBatch U tool batch rs := by
  induction batch generalizing rs with
  | nil => exact h
  | cons b batch ih => exact ih (mem_recordInto_of_mem h hid)

/-- Where a record comes from once every comment of a batch has an id: it was there before, or it
was made of a comment whose fingerprint was not taken. -/
theorem recordBatch_origin {batch : List (Bytes × InlineComment)} {rs : List FindingRec}
    {r : FindingRec} (hids : ∀ b ∈ batch, b.1 ≠ []) (h : r ∈ recordBatch U tool batch rs) :
    (∃ r₀ ∈ rs, r = { r₀ with externalID := r.externalID } ∧ (r₀.externalID ≠ [] → r = r₀)) ∨
      ∃ b₁ id d b₂, batch = b₁ ++ (id,d) :: b₂ ∧ r = newRec U tool id d ∧
        Fingerprint U tool d ∉ rs.map FindingRec.fingerprint ∧
        ∀ b ∈ b₁, Fingerprint U tool b.2 ≠ Fingerprint U tool d := by
  induction batch generalizing rs with
  | nil => exact .inl ⟨r,h,rfl,fun _ => rfl⟩
  | cons b batch ih =>
    obtain ⟨id,d⟩ := b
    rcases ih (fun b hb => hids b (by simp [hb])) h with ⟨r₀,hr₀,he,hkeep⟩ |
      ⟨b₁,id',d',b₂,rfl,rfl,hfp,hb₁⟩
    · rcases mem_recordInto hr₀ with ⟨rfl,hfp⟩ | ⟨r₁,hr₁,he₁,hkeep₁⟩
      · exact .inr ⟨[],id,d,batch,rfl,hkeep (hids (id,d) (by simp)),hfp,by simp⟩
      · refine .inl ⟨r₁,hr₁,?_,fun hne => ?_⟩
        · rw [he,he₁]
        · obtain rfl := hkeep₁ hne
          exact hkeep hne
    · rw [mem_recordInto_fingerprints,not_or] at hfp
      right
      refine ⟨(id,d) :: b₁,id',d',b₂,rfl,rfl,hfp.1,?_⟩
      intro b hb
      rcases List.mem_cons.mp hb with rfl | hb
      · exact fun he => hfp.2 he.symm
      · exact hb₁ b hb

/-- A comment with a free fingerprint and an id gets its record, and keeps it. -/
theorem newRec_mem_recordBatch {b₁ b₂ : List (Bytes × InlineComment)} {id : Bytes}
    {d : InlineComment} {rs : List FindingRec} (hid : id ≠ [])
    (hfp : Fingerprint U tool d ∉ rs.map FindingRec.fingerprint)
    (hb₁ : ∀ b ∈ b₁, Fingerprint U tool b.2 ≠ Fingerprint U tool d) :
    newRec U tool id d ∈ recordBatch U tool (b₁ ++ (id,d) :: b₂) rs := by
  induction b₁ generalizing rs with
  | nil =>
    change _ ∈ recordBatch U tool b₂ (recordInto (newRec U tool id d) rs)
    exact mem_recordBatch_of_mem U tool (mem_recordInto_self hfp) hid
  | cons b b₁ ih =>
    change _ ∈ recordBatch U tool (b₁ ++ (id,d) :: b₂) (recordInto (newRec U tool b.1 b.2) rs)
    apply ih _ fun b' hb => hb₁ b' (by simp [hb])
    rw [mem_recordInto_fingerprints,not_or]
    exact ⟨hfp,fun he => hb₁ b (by simp) he.symm⟩

end Record

end Findings
