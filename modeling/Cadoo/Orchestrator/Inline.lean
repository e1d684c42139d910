import Cadoo.Findings.Prior
import Cadoo.Orchestrator.AiPrompt
import Cadoo.Orchestrator.World

/-! Posting inline comments: the two-stage filter, the stamped copy that goes over the wire, the
records of what was posted, and the resolution of threads the run did not report again. -/
namespace Orchestrator
open Bytes Utf8 Vcs Findings

variable (U : Tables) {W : Type}

/-- Whether the store knows a comment; a failed lookup counts as no. -/
def known (posted : Option Store) (key : PRKey) (tool : Bytes) (c : InlineComment) : Bool :=
  match posted with
  | none => false
  | some s =>
    match s.HasFinding U key tool c with
    | .ok has => has
    | .error _ => false

/-- The loop over a batch: known comments are dropped, and so are those whose key came earlier. -/
def filterNew (has : InlineComment → Bool) (tool : Bytes) :
    List InlineComment → List Bytes → List InlineComment
  | [], _ => []
  | c :: cs, seenKeys =>
    if has c then filterNew has tool cs seenKeys
    else
      let sk := StructuralKey U tool c
      if sk ∈ seenKeys then filterNew has tool cs seenKeys
      else c :: filterNew has tool cs (sk :: seenKeys)

def newComments (posted : Option Store) (key : PRKey) (tool : Bytes)
    (comments : List InlineComment) : List InlineComment :=
  if tool = [] then comments else filterNew U (known U posted key tool) tool comments []

/-- The copy of a comment that goes over the wire. -/
def wireComment (tool : Bytes) (c : InlineComment) : InlineComment :=
  if tool = [] then c
  else { c with body := StampInline U tool c ++ lit "\n\n" ++ buildAIPromptBlock c cadooAIIconURL }

/-- Each ref is paired with its pristine comment by index; refs beyond the batch are ignored. -/
def recordRefs (key : PRKey) (tool : Bytes) (refs : List PostedInlineRef)
    (delta : List InlineComment) (s : Store) : Store :=
  (refs.zip delta).foldl (fun s rd => (s.RecordFinding U key tool rd.1.externalID rd.2).1) s

def postDelta (p : Provider W) (pr : PullRequest) (key : PRKey) (tool : Bytes)
    (delta : List InlineComment) (w : World W) : World W :=
  if delta = [] then w
  else
    let (refs,w) := w.postInlineComments p pr (delta.map (wireComment U tool))
    if tool = [] then w
    else { w with posted := w.posted.map (recordRefs U key tool refs delta) }

/-- The key a prior is compared by. A record without one falls back on its title. -/
def priorKey (p : PostedFinding) : Bytes :=
  if p.structuralKey ≠ [] then p.structuralKey
  else StructuralKey U p.tool
    { file := p.file, lineStart := 0, lineEnd := 0, body := p.title, severity := p.severity }

/-- Whether a prior's thread is to be resolved: it is this tool's, has an id, lies in the change
set of an incremental run, and no current comment has its key. -/
def isStale (tool : Bytes) (currentKeys changeSet : List Bytes) (incrementalRun : Bool)
    (p : PostedFinding) : Bool :=
  if p.tool ≠ tool ∨ p.externalCommentID = [] then false
  else if incrementalRun = true ∧ changeSet ≠ [] ∧ p.file ∉ changeSet then false
  else priorKey U p ∉ currentKeys

lemma isStale_eq_false_iff {tool : Bytes} {currentKeys changeSet : List Bytes} {incrementalRun : Bool} {p : PostedFinding} :
    isStale U tool currentKeys changeSet incrementalRun p = false ↔
      p.tool ≠ tool ∨ p.externalCommentID = [] ∨ (incrementalRun = true ∧ changeSet ≠ [] ∧ p.file ∉ changeSet) ∨
        priorKey U p ∈ currentKeys := by
  rw [isStale]
  split
  · next h => exact iff_of_true rfl (or_assoc.mp (.inl h))
  · next hown =>
    rw [not_or] at hown
    split
    · next h => exact iff_of_true rfl (.inr (.inr (.inl h)))
    · next hin => simp [hown,hin]

def resolveStalePriors (p : Provider W) (pr : PullRequest) (tool : Bytes)
    (prior : List PostedFinding) (current : List InlineComment) (changeSet : List Bytes)
    (incrementalRun : Bool) (w : World W) : World W :=
  if tool = [] ∨ prior = [] then w
  else
    let currentKeys := current.map (StructuralKey U tool)
    prior.foldl (fun w q =>
      if isStale U tool currentKeys changeSet incrementalRun q then
        w.resolveThread p pr q.externalCommentID
      else w) w

/-- The prior findings of a pull request; a failed read counts as none. -/
def priorFindings (posted : Option Store) (key : PRKey) (tool : Bytes) : List PostedFinding :=
  match posted with
  | none => []
  | some s =>
    if tool = [] then []
    else match s.ListPostedFindings key with
      | .ok prior => prior
      | .error _ => []

def postInline (p : Provider W) (pr : PullRequest) (key : PRKey) (tool : Bytes)
    (comments : List InlineComment) (changeSet : List Bytes) (incrementalRun : Bool)
    (w : World W) : World W :=
  let prior := priorFindings w.posted key tool
  let delta := newComments U w.posted key tool comments
  let w := postDelta U p pr key tool delta w
  resolveStalePriors U p pr tool prior comments changeSet incrementalRun w

section Calls
variable (p : Provider W) (pr : PullRequest) (key : PRKey) (tool : Bytes)
  (comments : List InlineComment) (changeSet : List Bytes) (incrementalRun : Bool) (w : World W)

/-- The priors a run resolves, in order. -/
def stalePriors (prior : List PostedFinding) : List PostedFinding :=
  if tool = [] then []
  else prior.filter (isStale U tool (comments.map (StructuralKey U tool)) changeSet incrementalRun)

lemma mem_stalePriors {prior : List PostedFinding} {q : PostedFinding} :
    q ∈ stalePriors U tool comments changeSet incrementalRun prior ↔
      tool ≠ [] ∧ q ∈ prior ∧ q.tool = tool ∧ q.externalCommentID ≠ [] ∧
        (incrementalRun = true → changeSet ≠ [] → q.file ∈ changeSet) ∧
        priorKey U q ∉ comments.map (StructuralKey U tool) := by
  unfold stalePriors isStale
  split
  · next h => simp [h]
  · next h =>
    rw [List.mem_filter]
    split
    · next h' => simp [h,-List.mem_map]; tauto
    · split
      · next h' => simp [h,-List.mem_map]; tauto
      · next h' => simp [h,-List.mem_map] at *; tauto

@[simp] lemma resolveStalePriors_posted (prior : List PostedFinding) :
    (resolveStalePriors U p pr tool prior comments changeSet incrementalRun w).posted =
      w.posted := by
  unfold resolveStalePriors
  split
  · rfl
  · apply List.foldlRecOn (motive := fun v : World W => v.posted = w.posted) prior _ rfl
    intro v hv q _
    split
    · rw [World.resolveThread_posted]
      exact hv
    · exact hv

/-- The loop resolves the stale priors one by one and does nothing else. -/
theorem resolveStalePriors_calls (prior : List PostedFinding) :
    (resolveStalePriors U p pr tool prior comments changeSet incrementalRun w).calls = w.calls ++
      (stalePriors U tool comments changeSet incrementalRun prior).map fun q =>
        .resolveThread q.externalCommentID := by
  unfold resolveStalePriors stalePriors
  by_cases ht : tool = []
  · simp [ht]
  · simp only [ht,false_or,if_false]
    split
    · next hp => simp [hp]
    · clear * -
      induction prior generalizing w with
      | nil => simp
      | cons q prior ih =>
        rw [List.foldl_cons,ih,List.filter_cons]
        split <;> simp

lemma postDelta_calls (delta : List InlineComment) :
    (postDelta U p pr key tool delta w).calls = w.calls ++
      if delta = [] then [] else [.postInlineComments (delta.map (wireComment U tool))] := by
  unfold postDelta
  split
  · simp
  · dsimp only
    split <;> simp

/-- The ids a run resolves are those of its stale priors. -/
theorem postInline_resolved :
    resolvedIDs (postInline U p pr key tool comments changeSet incrementalRun w).calls =
      resolvedIDs w.calls ++ (stalePriors U tool comments changeSet incrementalRun
        (priorFindings w.posted key tool)).map PostedFinding.externalCommentID := by
  have hs : ∀ qs : List PostedFinding,
      resolvedIDs (qs.map fun q => Call.resolveThread q.externalCommentID) =
        qs.map PostedFinding.externalCommentID := by
    intro qs
    simp [resolvedIDs,List.filterMap_map,Function.comp_def,Call.resolved]
  rw [postInline,resolveStalePriors_calls,postDelta_calls,resolvedIDs_append,resolvedIDs_append,hs]
  split <;> simp [resolvedIDs,Call.resolved]

/-- The comments a run sends are the stamped copies of the new ones. -/
theorem postInline_sent :
    sentComments (postInline U p pr key tool comments changeSet incrementalRun w).calls =
      sentComments w.calls ++
        (newComments U w.posted key tool comments).map (wireComment U tool) := by
  rw [postInline,resolveStalePriors_calls,postDelta_calls,sentComments_append,sentComments_append]
  have hs : ∀ qs : List PostedFinding,
      sentComments (qs.map fun q => Call.resolveThread q.externalCommentID) = [] := by
    intro qs
    simp [sentComments,Call.sent]
  rw [hs]
  split <;> simp_all [sentComments,Call.sent]

end Calls

section Filter
variable (has : InlineComment → Bool) (tool : Bytes)

lemma filterNew_cons (c : InlineComment) (cs : List InlineComment) (seen : List Bytes) :
    filterNew U has tool (c :: cs) seen =
      if has c then filterNew U has tool cs seen
      else if StructuralKey U tool c ∈ seen then filterNew U has tool cs seen
      else c :: filterNew U has tool cs (StructuralKey U tool c :: seen) := rfl

/-- A comment passes where it is unknown and no unknown one before it has its key. -/
lemma mem_filterNew_iff {cs : List InlineComment} {seen : List Bytes} {c : InlineComment} :
    c ∈ filterNew U has tool cs seen ↔ has c = false ∧ StructuralKey U tool c ∉ seen ∧
      ∃ pre post, cs = pre ++ c :: post ∧
        ∀ z ∈ pre, has z = false → StructuralKey U tool z ≠ StructuralKey U tool c := by
  induction cs generalizing seen with
  | nil => simp [filterNew]
  | cons d cs ih =>
    rw [filterNew_cons,exists_split_cons]
    split
    · next hd =>
      rw [ih]
      constructor
      · rintro ⟨hc,hs,h⟩
        exact ⟨hc,hs,.inr ⟨by simp [hd],h⟩⟩
      · rintro ⟨hc,hs,rfl | ⟨-,h⟩⟩
        · simp [hd] at hc
        · exact ⟨hc,hs,h⟩
    · next hd =>
      have hd : has d = false := by simpa using hd
      split
      · next hin =>
        rw [ih]
        constructor
        · rintro ⟨hc,hs,h⟩
          exact ⟨hc,hs,.inr ⟨fun _ he => hs (he ▸ hin),h⟩⟩
        · rintro ⟨hc,hs,rfl | ⟨-,h⟩⟩
          · exact absurd hin hs
          · exact ⟨hc,hs,h⟩
      · next hin =>
        rw [List.mem_cons,ih,List.mem_cons,not_or]
        constructor
        · rintro (rfl | ⟨hc,⟨hne,hs⟩,h⟩)
          · exact ⟨hd,hin,.inl rfl⟩
          · exact ⟨hc,hs,.inr ⟨fun _ he => hne he.symm,h⟩⟩
        · rintro ⟨hc,hs,rfl | ⟨hk,h⟩⟩
          · exact .inl rfl
          · exact .inr ⟨hc,⟨fun he => hk hd he.symm,hs⟩,h⟩

/-- What passes the filter is unknown and has a key not seen before. -/
lemma mem_filterNew {cs : List InlineComment} {seen : List Bytes} {c : InlineComment}
    (h : c ∈ filterNew U has tool cs seen) :
    c ∈ cs ∧ has c = false ∧ StructuralKey U tool c ∉ seen := by
  obtain ⟨hc,hs,pre,post,rfl,-⟩ := (mem_filterNew_iff U has tool).mp h
  exact ⟨by simp,hc,hs⟩

/-- An unknown comment passes, or its key has been seen, before the batch or in it. -/
lemma filterNew_covers {cs : List InlineComment} (seen : List Bytes) {c : InlineComment}
    (hc : c ∈ cs) (hh : has c = false) :
    StructuralKey U tool c ∈ seen ∨
      ∃ d ∈ filterNew U has tool cs seen, StructuralKey U tool d = StructuralKey U tool c := by
  induction cs generalizing seen with
  | nil => simp at hc
  | cons d cs ih =>
    rw [filterNew_cons]
    rcases List.mem_cons.mp hc with rfl | hc
    · simp only [hh,Bool.false_eq_true,if_false]
      split
      · next hk => exact .inl hk
      · exact .inr ⟨c,by simp,rfl⟩
    · split
      · exact ih seen hc
      · split
        · exact ih seen hc
        · rcases ih (StructuralKey U tool d :: seen) hc with h | ⟨e,he,hk⟩
          · rcases List.mem_cons.mp h with h | h
            · exact .inr ⟨d,by simp,h.symm⟩
            · exact .inl h
          · exact .inr ⟨e,by simp [he],hk⟩

lemma filterNew_append (xs ys : List InlineComment) (seen : List Bytes) :
    filterNew U has tool (xs ++ ys) seen = filterNew U has tool xs seen ++ filterNew U has tool ys
      (((filterNew U has tool xs seen).map (StructuralKey U tool)).reverse ++ seen) := by
  induction xs generalizing seen with
  | nil => rfl
  | cons c xs ih =>
    rw [List.cons_append,filterNew_cons,filterNew_cons]
    split
    · exact ih seen
    · split
      · exact ih seen
      · rw [ih]
        simp

end Filter

section Records
variable (p : Provider W) (pr : PullRequest) (key : PRKey) (tool : Bytes)
  (comments : List InlineComment) (changeSet : List Bytes) (incrementalRun : Bool)

/-- The pairs a run records: the refs of the provider with the new comments, by index. -/
def recorded (posted : Option Store) (host : W) : List (Bytes × InlineComment) :=
  let delta := newComments U posted key tool comments
  let refs := (p.postInlineComments pr (delta.map (wireComment U tool)) host).1.1
  (refs.zip delta).map fun rd => (rd.1.externalID,rd.2)

lemma recordRefs_mem (refs : List PostedInlineRef) (delta : List InlineComment)
    (pool : Option Database) (m : MemoryStore) :
    ∃ m', recordRefs U key tool refs delta ⟨pool,some m⟩ = ⟨pool,some m'⟩ ∧
      m'.findings.get key = recordBatch U tool ((refs.zip delta).map fun rd => (rd.1.externalID,rd.2))
        (m.findings.get key) := by
  unfold recordRefs
  generalize refs.zip delta = rds
  induction rds generalizing m with
  | nil => exact ⟨m,rfl,rfl⟩
  | cons rd rds ih =>
    obtain ⟨m',hm',hrec⟩ := ih (m.record U key tool rd.1.externalID rd.2)
    refine ⟨m',hm',?_⟩
    rw [hrec,MemoryStore.record]
    dsimp only
    rw [GoMap.get_insert]
    rfl

/-- What a run over a memory store leaves in it. -/
theorem postInline_records (ht : tool ≠ []) (pool : Option Database) (m : MemoryStore) (host : W)
    (calls : List Call) : ∃ m',
    (postInline U p pr key tool comments changeSet incrementalRun ⟨host,some ⟨pool,some m⟩,calls⟩).posted =
      some ⟨pool,some m'⟩ ∧
    m'.findings.get key = recordBatch U tool (recorded U p pr key tool comments (some ⟨pool,some m⟩)
      host) (m.findings.get key) := by
  rw [postInline,resolveStalePriors_posted,postDelta,recorded]
  simp only [ht,if_false]
  split
  · next h => exact ⟨m,rfl,by simp [h,recordBatch]⟩
  · obtain ⟨m',hm',hrec⟩ := recordRefs_mem U key tool
      (p.postInlineComments pr ((newComments U (some ⟨pool,some m⟩) key tool comments).map
        (wireComment U tool)) host).1.1 (newComments U (some ⟨pool,some m⟩) key tool comments) pool m
    exact ⟨m',congrArg some hm',hrec⟩

end Records

end Orchestrator
