import Cadoo.Orchestrator.Suppression

/-! Which comments of one batch keep an identity of their own. The filter and the records fold the
case of file names, the lookup does not, so files that differ in case only can be merged or lost. -/
namespace Orchestrator
open Bytes Utf8 Vcs Findings

variable (U : Tables) {W : Type}

/-- A provider that gives every comment an id of its own. -/
structure OwnIDs (refs : List PostedInlineRef) (delta : List InlineComment) : Prop where
  length_eq : refs.length = delta.length
  ne_nil : ∀ r ∈ refs, r.externalID ≠ []
  nodup : (refs.map PostedInlineRef.externalID).Nodup

variable (p : Provider W) (pr : PullRequest) (key : PRKey) (tool : Bytes)
  (comments : List InlineComment) (changeSet : List Bytes) (incrementalRun : Bool)
  (m : MemoryStore) (host : W)

/-- A comment is kept: it is sent, has a record of its own under its own id, is known afterwards,
and the next run with the same batch does not send it again. -/
def Kept (x : InlineComment) : Prop :=
  let w := postInline U p pr key tool comments changeSet incrementalRun (.ofMemory host m)
  wireComment U tool x ∈ sentComments w.calls ∧
    (∃ id, (id,x) ∈ recorded U p pr key tool comments (some { mem := some m }) host ∧
      ∃ m', w.posted = some { mem := some m' } ∧ newRec U tool id x ∈ m'.findings.get key) ∧
    known U w.posted key tool x = true ∧ x ∉ newComments U w.posted key tool comments

/-- The first unknown comment with its key, the batch split there. -/
def FirstOfKey (batch pre : List InlineComment) (x : InlineComment) : Prop :=
  (∃ post, batch = pre ++ x :: post) ∧ known U (some { mem := some m }) key tool x = false ∧
    ∀ z ∈ pre, known U (some { mem := some m }) key tool z = false →
      StructuralKey U tool z ≠ StructuralKey U tool x

/-- No unknown comment before it has its structural key, and neither a record nor a comment before
it that is first of its key has its fingerprint. -/
def Distinguished (x : InlineComment) : Prop :=
  ∃ pre, FirstOfKey U key tool m comments pre x ∧
    (∀ a z, FirstOfKey U key tool m pre a z → Fingerprint U tool z ≠ Fingerprint U tool x) ∧
    ∀ r ∈ m.findings.get key, r.fingerprint ≠ Fingerprint U tool x

section Apart
variable {U key tool comments m}

/-- Distinguished comments differ in key and in fingerprint. -/
lemma distinguished_apart {x y : InlineComment} (hx : Distinguished U key tool comments m x)
    (hy : Distinguished U key tool comments m y) (hne : x ≠ y) :
    StructuralKey U tool x ≠ StructuralKey U tool y ∧ Fingerprint U tool x ≠ Fingerprint U tool y := by
  obtain ⟨pre,⟨⟨post,rfl⟩,hx,hpre⟩,hfp,-⟩ := hx
  obtain ⟨pre',⟨⟨post',hsplit⟩,hy,hpre'⟩,hfp',-⟩ := hy
  -- one of the two comes first, and the other one is told apart from it
  obtain ⟨rest,rfl,hrest⟩ | ⟨rest,rfl,hrest⟩ := List.append_eq_append_iff.mp hsplit
  · cases rest with
    | nil => exact absurd (List.cons_eq_cons.mp hrest).1 hne
    | cons z rest =>
      obtain ⟨rfl,-⟩ := List.cons_eq_cons.mp hrest
      exact ⟨hpre' x (by simp) hx,hfp' pre x ⟨⟨rest,rfl⟩,hx,hpre⟩⟩
  · cases rest with
    | nil => exact absurd (List.cons_eq_cons.mp hrest).1.symm hne
    | cons z rest =>
      obtain ⟨rfl,-⟩ := List.cons_eq_cons.mp hrest
      exact ⟨(hpre y (by simp) hy).symm,(hfp pre' y ⟨⟨rest,rfl⟩,hy,hpre'⟩).symm⟩

/-- Of one finding in two files whose names differ in case only, at most one is distinguished. -/
theorem not_distinguished_of_case {x : InlineComment} {f : Bytes} (hf : f ≠ x.file)
    (hcase : toLower U f = toLower U x.file) : ¬ (Distinguished U key tool comments m x ∧
      Distinguished U key tool comments m { x with file := f }) := by
  rintro ⟨hx,hy⟩
  have hne : { x with file := f } ≠ x := fun heq => hf (congrArg InlineComment.file heq)
  exact (distinguished_apart hy hx hne).1 (StructuralKey_file U tool x hcase)

end Apart

variable {tool}

lemma mem_newComments_iff (ht : tool ≠ []) {batch : List InlineComment} {x : InlineComment} :
    x ∈ newComments U (some { mem := some m }) key tool batch ↔
      ∃ pre, FirstOfKey U key tool m batch pre x := by
  rw [newComments,if_neg ht,mem_filterNew_iff]
  constructor
  · rintro ⟨hx,-,pre,post,h,hpre⟩
    exact ⟨pre,⟨post,h⟩,hx,hpre⟩
  · rintro ⟨pre,⟨post,h⟩,hx,hpre⟩
    exact ⟨hx,by simp,pre,post,h,hpre⟩

/-- The new comments of a batch split at the first of a key. -/
lemma newComments_split (ht : tool ≠ []) {pre : List InlineComment} {x : InlineComment}
    (h : FirstOfKey U key tool m comments pre x) :
    x ∉ newComments U (some { mem := some m }) key tool pre ∧ ∃ rest,
      newComments U (some { mem := some m }) key tool comments =
        newComments U (some { mem := some m }) key tool pre ++ x :: rest := by
  obtain ⟨⟨post,rfl⟩,hx,hpre⟩ := h
  have hkey : StructuralKey U tool x ∉ (newComments U (some { mem := some m }) key tool pre).map
      (StructuralKey U tool) := by
    intro hm
    obtain ⟨z,hz,hk⟩ := List.mem_map.mp hm
    rw [newComments,if_neg ht] at hz
    obtain ⟨hzp,hzk,-⟩ := mem_filterNew U _ tool hz
    exact hpre z hzp hzk hk
  refine ⟨fun hm => hkey (List.mem_map_of_mem hm),?_⟩
  simp only [newComments,if_neg ht] at hkey ⊢
  rw [filterNew_append,filterNew_cons,if_neg (by simp [hx]),if_neg (by simpa using hkey)]
  exact ⟨_,rfl⟩

section Records
variable (hids : OwnIDs (p.postInlineComments pr ((newComments U (some { mem := some m }) key tool
  comments).map (wireComment U tool)) host).1.1 (newComments U (some { mem := some m }) key tool
    comments))
include hids

lemma recorded_snd : (recorded U p pr key tool comments (some { mem := some m }) host).map Prod.snd =
    newComments U (some { mem := some m }) key tool comments := by
  rw [recorded]
  simp only [List.map_map]
  exact List.map_snd_zip hids.length_eq.ge

lemma recorded_fst : (recorded U p pr key tool comments (some { mem := some m }) host).map Prod.fst =
    (p.postInlineComments pr ((newComments U (some { mem := some m }) key tool comments).map
      (wireComment U tool)) host).1.1.map PostedInlineRef.externalID := by
  rw [recorded]
  simp only [List.map_map]
  change ((p.postInlineComments pr ((newComments U (some { mem := some m }) key tool comments).map
    (wireComment U tool)) host).1.1.zip _).map (PostedInlineRef.externalID ∘ Prod.fst) = _
  rw [← List.map_map,List.map_fst_zip hids.length_eq.le]

lemma recorded_ne_nil : ∀ b ∈ recorded U p pr key tool comments (some { mem := some m }) host,
    b.1 ≠ [] := by
  intro b hb
  have hm := List.mem_map_of_mem (f := Prod.fst) hb
  rw [recorded_fst U p pr key comments m host hids] at hm
  obtain ⟨r,hr,he⟩ := List.mem_map.mp hm
  rw [← he]
  exact hids.ne_nil r hr

/-- A kept comment is distinguished: its record can have been made of nothing else. -/
lemma distinguished_of_kept (ht : tool ≠ []) {x : InlineComment}
    (hx : known U (some { mem := some m }) key tool x = false)
    (h : Kept U p pr key tool comments changeSet incrementalRun m host x) :
    Distinguished U key tool comments m x := by
  obtain ⟨-,⟨id,hid,m',hm',hrec⟩,-,-⟩ := h
  obtain ⟨m'',hm'',hbatch⟩ := postInline_records U p pr key tool comments changeSet incrementalRun
    ht none m host []
  obtain rfl : m' = m'' := by simpa using hm'.symm.trans hm''
  rw [hbatch] at hrec
  have hsnd := recorded_snd U p pr key comments m host hids
  have hmem : x ∈ newComments U (some { mem := some m }) key tool comments := by
    rw [← hsnd]
    exact List.mem_map_of_mem (f := Prod.snd) hid
  obtain ⟨pre,hpre⟩ := (mem_newComments_iff U key m ht).mp hmem
  obtain ⟨hnot,rest,hsplit⟩ := newComments_split U key comments m ht hpre
  rcases recordBatch_origin U tool (recorded_ne_nil U p pr key comments m host hids) hrec with
    ⟨r₀,hr₀,he,-⟩ | ⟨b₁,id',d,b₂,hb,he,hfp,hb₁⟩
  · -- an old record with all of the comment's fields would have made it known
    exfalso
    have hm : r₀.matchesComment U tool x = (newRec U tool id x).matchesComment U tool x := by
      rw [he]
      rfl
    rw [newRec_matches] at hm
    have hk : known U (some { mem := some m }) key tool x = true :=
      List.any_eq_true.mpr ⟨r₀,hr₀,hm⟩
    simp [hx] at hk
  · obtain rfl : id = id' := congrArg FindingRec.externalID he
    have hnodup : ((recorded U p pr key tool comments (some { mem := some m }) host).map
        Prod.fst).Nodup := by
      rw [recorded_fst U p pr key comments m host hids]
      exact hids.nodup
    have hd : (id,d) ∈ recorded U p pr key tool comments (some { mem := some m }) host := by simp [hb]
    obtain rfl : x = d := congrArg Prod.snd (List.inj_on_of_nodup_map hnodup hid hd rfl)
    refine ⟨pre,hpre,?_,fun r hr he => hfp (he ▸ List.mem_map_of_mem hr)⟩
    have hfront : newComments U (some { mem := some m }) key tool pre = b₁.map Prod.snd := by
      have hx₁ : x ∉ b₁.map Prod.snd := by
        intro hm
        obtain ⟨b,hbm,hbx⟩ := List.mem_map.mp hm
        exact hb₁ b hbm (by rw [hbx])
      rw [hb,List.map_append,List.map_cons,hsplit] at hsnd
      exact (append_cons_front hx₁ hnot hsnd).symm
    intro a z hz
    have hzm : z ∈ b₁.map Prod.snd := hfront ▸ (mem_newComments_iff U key m ht).mpr ⟨a,hz⟩
    obtain ⟨b,hbm,rfl⟩ := List.mem_map.mp hzm
    exact hb₁ b hbm

lemma kept_of_distinguished (ht : tool ≠ []) {x : InlineComment}
    (h : Distinguished U key tool comments m x) :
    Kept U p pr key tool comments changeSet incrementalRun m host x := by
  obtain ⟨pre,hpre,hz,hr⟩ := h
  obtain ⟨-,rest,hsplit⟩ := newComments_split U key comments m ht hpre
  have hsnd := recorded_snd U p pr key comments m host hids
  rw [hsplit,List.map_eq_append_iff] at hsnd
  obtain ⟨b₁,b₂',hb,hb₁,hb₂⟩ := hsnd
  obtain ⟨⟨id,d⟩,b₂,rfl,hd,-⟩ := List.map_eq_cons_iff.mp hb₂
  obtain rfl : d = x := hd
  obtain ⟨m',hm',hbatch⟩ := postInline_records U p pr key tool comments changeSet incrementalRun
    ht none m host []
  have hid : id ≠ [] :=
    recorded_ne_nil U p pr key comments m host hids (id,d) (by rw [hb]; simp)
  have hrec : newRec U tool id d ∈ m'.findings.get key := by
    rw [hbatch,hb]
    apply newRec_mem_recordBatch U tool hid
    · intro hm
      obtain ⟨r,hrm,he⟩ := List.mem_map.mp hm
      exact hr r hrm he
    · intro b hbm
      have hn : b.2 ∈ newComments U (some { mem := some m }) key tool pre :=
        hb₁ ▸ List.mem_map_of_mem hbm
      obtain ⟨a,ha⟩ := (mem_newComments_iff U key m ht).mp hn
      exact hz a b.2 ha
  have hknown : known U (postInline U p pr key tool comments changeSet incrementalRun
      (.ofMemory host m)).posted key tool d = true := by
    rw [World.ofMemory,hm']
    exact List.any_eq_true.mpr ⟨_,hrec,newRec_matches U tool id d⟩
  refine ⟨?_,⟨id,by rw [hb]; simp,m',hm',hrec⟩,hknown,?_⟩
  · rw [postInline_sent]
    change wireComment U tool d ∈ [] ++ (newComments U (some { mem := some m }) key tool
      comments).map (wireComment U tool)
    rw [hsplit]
    simp
  · intro hmem
    rw [newComments,if_neg ht] at hmem
    have := (mem_filterNew U _ tool hmem).2.1
    simp [hknown] at this

/-- Two unknown comments, on different files or not, are both kept exactly when each is
distinguished. -/
theorem both_kept_iff (ht : tool ≠ []) {x y : InlineComment}
    (hx : known U (some { mem := some m }) key tool x = false)
    (hy : known U (some { mem := some m }) key tool y = false) :
    (Kept U p pr key tool comments changeSet incrementalRun m host x ∧
      Kept U p pr key tool comments changeSet incrementalRun m host y) ↔
    Distinguished U key tool comments m x ∧ Distinguished U key tool comments m y := by
  have hiff : ∀ z, known U (some { mem := some m }) key tool z = false →
      (Kept U p pr key tool comments changeSet incrementalRun m host z ↔
        Distinguished U key tool comments m z) := fun z hz =>
    ⟨distinguished_of_kept U p pr key comments changeSet incrementalRun m host hids ht hz,
      kept_of_distinguished U p pr key comments changeSet incrementalRun m host hids ht⟩
  rw [hiff x hx,hiff y hy]

end Records

section TwoFiles

/-- A provider that numbers the comments of a call. -/
def numberingProvider : Provider Unit :=
  { quietProvider examplePR with
    postInlineComments := fun _ comments _ => ((comments.mapIdx fun i c => ⟨c,natDecimal i⟩,none),()) }

def upperFile : InlineComment := { unclosedRows with file := lit "DB.go" }
def otherFile : InlineComment := { unclosedRows with file := lit "api.go" }

/-- The same finding in two files whose names differ in case only: one of the two is not sent. -/
theorem case_folded_file_dropped : unclosedRows.file ≠ upperFile.file ∧
    ¬ (Kept Tables.plain numberingProvider examplePR exampleKey (lit "review")
        [unclosedRows,upperFile] [] false {} () unclosedRows ∧
      Kept Tables.plain numberingProvider examplePR exampleKey (lit "review")
        [unclosedRows,upperFile] [] false {} () upperFile) := by
  refine ⟨by decide,?_⟩
  rintro ⟨-,hsent,-⟩
  revert hsent
  decide +kernel

theorem otherFile_kept_iff :
    (Kept Tables.plain numberingProvider examplePR exampleKey (lit "review")
        [unclosedRows,otherFile] [] false {} () unclosedRows ∧
      Kept Tables.plain numberingProvider examplePR exampleKey (lit "review")
        [unclosedRows,otherFile] [] false {} () otherFile) ↔
    Distinguished Tables.plain exampleKey (lit "review") [unclosedRows,otherFile] {} unclosedRows ∧
      Distinguished Tables.plain exampleKey (lit "review") [unclosedRows,otherFile] {} otherFile := by
  have hdelta : newComments Tables.plain (some { mem := some {} }) exampleKey (lit "review")
      [unclosedRows,otherFile] = [unclosedRows,otherFile] := by
    decide +kernel
  apply both_kept_iff Tables.plain numberingProvider examplePR exampleKey _ [] false {} () _
    (by decide) rfl rfl
  rw [hdelta]
  exact ⟨rfl,by decide +kernel,by decide +kernel⟩

end TwoFiles

end Orchestrator
