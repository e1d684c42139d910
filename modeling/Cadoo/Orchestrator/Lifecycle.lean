import Mathlib.Algebra.Order.BigOperators.Group.List
import Cadoo.Lib.Machine
import Cadoo.Orchestrator.Suppression

/-! The life of a finding over many runs. The provider's threads are opened and resolved, the store's
records are never withdrawn, and so a finding whose thread was resolved once is not posted again. -/
namespace Orchestrator
open Bytes Utf8 Vcs Findings

/-- A review thread on the provider's side. -/
structure Thread where
  id : Bytes
  comment : InlineComment
  resolved : Bool := false
  deriving DecidableEq

def Thread.close (ids : List Bytes) (th : Thread) : Thread :=
  { th with resolved := th.resolved || decide (th.id ∈ ids) }

/-- The threads opened by comments posted one after the other. -/
def opened (mint : List Thread → Bytes) : List InlineComment → List Thread → List Thread
  | [], _ => []
  | c :: cs, ths =>
    let th : Thread := { id := mint ths, comment := c }
    th :: opened mint cs (ths ++ [th])

/-- A provider on which every call succeeds and every comment opens a thread. -/
def threadHost (mint : List Thread → Bytes) (pr : PullRequest) : Provider (List Thread) where
  kind := KindGitLab
  fetchPullRequest _ _ _ := .ok pr
  listChangedFiles _ _ := .ok []
  postSummaryComment _ _ ths := (.ok [],ths)
  updateSummaryComment _ _ _ ths := (none,ths)
  postInlineComments _ comments ths :=
    let new := opened mint comments ths
    ((new.map fun th => ⟨th.comment,th.id⟩,none),ths ++ new)
  resolveThread _ id ths := (none,ths.map (Thread.close [id]))
  editPullRequestBody _ _ ths := (none,ths)
  upsertCheckRun _ _ ths := (none,ths)
  diffBetween := none

/-- Ids are not empty, and new each time. -/
def Fresh (mint : List Thread → Bytes) : Prop := ∀ ths, mint ths ≠ [] ∧ mint ths ∉ ths.map Thread.id

variable (U : Tables) (mint : List Thread → Bytes) (pr : PullRequest) (key : PRKey) (tool : Bytes)

/-- A full-review run, with a log of its own. -/
def reviewRun (w : World (List Thread)) (batch : List InlineComment) : World (List Thread) :=
  postInline U (threadHost mint pr) pr key tool batch [] false { w with calls := [] }

def records (w : World (List Thread)) : List FindingRec :=
  match w.posted with
  | some ⟨_,some m⟩ => m.findings.get key
  | _ => []

/-- The threads a run opens, each with the new comment it was opened by. -/
def openedFor (w : World (List Thread)) (batch : List InlineComment) :
    List (Thread × InlineComment) :=
  let delta := newComments U w.posted key tool batch
  (opened mint (delta.map (wireComment U tool)) w.host).zip delta

/-- A thread shows a comment: it was opened by it, or the record of the thread stands for it. -/
def Shows (w : World (List Thread)) (th : Thread) (c : InlineComment) : Prop :=
  th.comment = wireComment U tool c ∨
    ∃ r ∈ records key w, r.externalID = th.id ∧ r.matchesComment U tool c = true

/-- Some unresolved thread shows the comment. -/
def Visible (w : World (List Thread)) (c : InlineComment) : Prop :=
  ∃ th ∈ w.host, th.resolved = false ∧ Shows U key tool w th c

/-- The store is in memory, and every record has a thread. -/
structure Consistent (w : World (List Thread)) : Prop where
  memory : ∃ m, w.posted = some { mem := some m }
  threads : ∀ r ∈ records key w, r.externalID ≠ [] ∧ r.externalID ∈ w.host.map Thread.id

section Threads

@[simp] lemma close_id (ids : List Bytes) (th : Thread) : (th.close ids).id = th.id := rfl

lemma close_resolved (ids : List Bytes) (th : Thread) :
    (th.close ids).resolved = false ↔ th.resolved = false ∧ th.id ∉ ids := by
  simp [Thread.close]

lemma close_close (ids : List Bytes) (id : Bytes) (th : Thread) :
    (th.close [id]).close ids = th.close (id :: ids) := by
  simp [Thread.close,Bool.or_assoc]

lemma map_close_id (ids : List Bytes) (ths : List Thread) :
    (ths.map (Thread.close ids)).map Thread.id = ths.map Thread.id := by
  rw [List.map_map]
  rfl

variable {mint} (hm : Fresh mint) (cs : List InlineComment) (ths : List Thread)

@[simp] lemma opened_comments : (opened mint cs ths).map Thread.comment = cs := by
  induction cs generalizing ths with
  | nil => rfl
  | cons c cs ih =>
    rw [opened]
    exact congrArg (c :: ·) (ih _)

lemma opened_length : (opened mint cs ths).length = cs.length := by
  rw [← List.length_map (f := Thread.comment),opened_comments]

lemma opened_unresolved : ∀ th ∈ opened mint cs ths, th.resolved = false := by
  induction cs generalizing ths with
  | nil => simp [opened]
  | cons c cs ih =>
    intro th hth
    rcases List.mem_cons.mp hth with rfl | hth
    · rfl
    · exact ih _ th hth

include hm in
lemma opened_fresh : ∀ th ∈ opened mint cs ths, th.id ≠ [] ∧ th.id ∉ ths.map Thread.id := by
  induction cs generalizing ths with
  | nil => simp [opened]
  | cons c cs ih =>
    intro th hth
    rcases List.mem_cons.mp hth with rfl | hth
    · exact hm ths
    · obtain ⟨hne,hnot⟩ := ih _ th hth
      refine ⟨hne,fun hin => hnot ?_⟩
      rw [List.map_append]
      exact List.mem_append_left _ hin

end Threads

section Run

/-- The resolution loop closes the threads of the stale priors. -/
lemma resolveStalePriors_host (prior : List PostedFinding) (current : List InlineComment)
    (w : World (List Thread)) :
    (resolveStalePriors U (threadHost mint pr) pr tool prior current [] false w).host =
      w.host.map (Thread.close ((stalePriors U tool current [] false prior).map
        PostedFinding.externalCommentID)) := by
  have hnone : ∀ ths : List Thread, ths.map (Thread.close []) = ths := by
    intro ths
    have : Thread.close [] = id := by
      funext th
      simp [Thread.close]
    simp [this]
  unfold resolveStalePriors stalePriors
  by_cases ht : tool = []
  · simp [ht,hnone]
  · simp only [ht,false_or,if_false]
    split
    · next hp => simp [hp,hnone]
    · clear * - hnone
      induction prior generalizing w with
      | nil => simp [hnone]
      | cons q prior ih =>
        rw [List.foldl_cons,ih,List.filter_cons]
        split
        · change List.map _ (w.host.map (Thread.close [q.externalCommentID])) = _
          rw [List.map_map,List.map_cons]
          exact List.map_congr_left fun th _ => close_close _ _ th
        · rfl

lemma openedFor_fst (w : World (List Thread)) (batch : List InlineComment) :
    (openedFor U mint key tool w batch).map Prod.fst =
      opened mint ((newComments U w.posted key tool batch).map (wireComment U tool)) w.host := by
  exact List.map_fst_zip (by rw [opened_length,List.length_map])

lemma openedFor_snd (w : World (List Thread)) (batch : List InlineComment) :
    (openedFor U mint key tool w batch).map Prod.snd = newComments U w.posted key tool batch := by
  exact List.map_snd_zip (by rw [opened_length,List.length_map])

/-- What a run does to the threads: it opens one for each new comment, then closes the stale ones. -/
theorem reviewRun_host (w : World (List Thread)) (batch : List InlineComment) :
    (reviewRun U mint pr key tool w batch).host =
      (w.host ++ (openedFor U mint key tool w batch).map Prod.fst).map
        (Thread.close (resolvedIDs (reviewRun U mint pr key tool w batch).calls)) := by
  have hids : resolvedIDs (reviewRun U mint pr key tool w batch).calls =
      (stalePriors U tool batch [] false (priorFindings w.posted key tool)).map
        PostedFinding.externalCommentID := by
    rw [reviewRun,postInline_resolved]
    rfl
  rw [hids,openedFor_fst,reviewRun,postInline,resolveStalePriors_host]
  congr 1
  rw [postDelta]
  split
  · next hnil => simp [hnil,opened]
  · dsimp only
    split <;> rfl

/-- What a run records: the comment of each thread it opened, with the id of the thread. -/
lemma recorded_threadHost (w : World (List Thread)) (batch : List InlineComment) :
    recorded U (threadHost mint pr) pr key tool batch w.posted w.host =
      (openedFor U mint key tool w batch).map fun td => (td.1.id,td.2) := by
  rw [recorded,openedFor]
  change List.map _ (List.zip (List.map _ _) _) = _
  rw [List.zip_map_left,List.map_map]
  rfl

variable {U mint pr key tool} {w : World (List Thread)}

/-- The records after a run are those of the new comments, recorded into the old ones. -/
theorem reviewRun_records (ht : tool ≠ []) (hw : ∃ m, w.posted = some { mem := some m })
    (batch : List InlineComment) :
    (∃ m', (reviewRun U mint pr key tool w batch).posted = some { mem := some m' }) ∧
      records key (reviewRun U mint pr key tool w batch) =
        recordBatch U tool ((openedFor U mint key tool w batch).map fun td => (td.1.id,td.2))
          (records key w) := by
  obtain ⟨m,hm⟩ := hw
  obtain ⟨m',hm',hrec⟩ := postInline_records U (threadHost mint pr) pr key tool batch [] false ht
    none m w.host []
  have hrun : (reviewRun U mint pr key tool w batch).posted = some { mem := some m' } := by
    rw [reviewRun,hm]
    exact hm'
  refine ⟨⟨m',hrun⟩,?_⟩
  rw [← recorded_threadHost U mint pr key tool w batch,records,records,hrun,hm]
  exact hrec

end Run

section History
variable {U mint pr key tool} (hmint : Fresh mint) (ht : tool ≠ []) {w : World (List Thread)}
  {batch : List InlineComment}

lemma openedFor_comment {td : Thread × InlineComment}
    (h : td ∈ openedFor U mint key tool w batch) : td.1.comment = wireComment U tool td.2 := by
  have heq : (openedFor U mint key tool w batch).map (fun td => td.1.comment) =
      (openedFor U mint key tool w batch).map (fun td => wireComment U tool td.2) := by
    have hfst := congrArg (List.map Thread.comment) (openedFor_fst U mint key tool w batch)
    have hsnd := congrArg (List.map (wireComment U tool)) (openedFor_snd U mint key tool w batch)
    rw [opened_comments,← hsnd,List.map_map,List.map_map] at hfst
    exact hfst
  exact List.map_inj_left.mp heq td h

lemma openedFor_unresolved {td : Thread × InlineComment}
    (h : td ∈ openedFor U mint key tool w batch) : td.1.resolved = false := by
  have hmem := List.mem_map_of_mem (f := Prod.fst) h
  rw [openedFor_fst] at hmem
  exact opened_unresolved _ _ _ hmem

include hmint in
lemma openedFor_fresh {td : Thread × InlineComment} (h : td ∈ openedFor U mint key tool w batch) :
    td.1.id ≠ [] ∧ td.1.id ∉ w.host.map Thread.id := by
  have hmem := List.mem_map_of_mem (f := Prod.fst) h
  rw [openedFor_fst] at hmem
  exact opened_fresh hmint _ _ _ hmem

variable (hw : Consistent key w)
include ht hw

/-- A record that has a thread stays as it is. -/
lemma mem_records_of_mem {r : FindingRec} (hr : r ∈ records key w) :
    r ∈ records key (reviewRun U mint pr key tool w batch) := by
  rw [(reviewRun_records ht hw.memory batch).2]
  exact mem_recordBatch_of_mem U tool hr (hw.threads r hr).1

include hmint in
/-- A record after a run was there before, or it is that of a thread just opened. -/
lemma record_origin {r : FindingRec} (hr : r ∈ records key (reviewRun U mint pr key tool w batch)) :
    r ∈ records key w ∨ ∃ td ∈ openedFor U mint key tool w batch, r = newRec U tool td.1.id td.2 ∧
      td.2 ∈ storedAnew U tool ((records key w).map FindingRec.fingerprint)
        (newComments U w.posted key tool batch) := by
  rw [(reviewRun_records ht hw.memory batch).2] at hr
  have hids : ∀ b ∈ (openedFor U mint key tool w batch).map fun td => (td.1.id,td.2), b.1 ≠ [] := by
    intro b hb
    obtain ⟨td,htd,rfl⟩ := List.mem_map.mp hb
    exact (openedFor_fresh hmint htd).1
  rcases recordBatch_origin U tool hids hr with ⟨r₀,hr₀,-,hkeep⟩ | ⟨b₁,id,d,b₂,hb,rfl,hfree,hb₁⟩
  · left
    rw [hkeep (hw.threads r₀ hr₀).1]
    exact hr₀
  · right
    have hmem : (id,d) ∈ (openedFor U mint key tool w batch).map fun td => (td.1.id,td.2) := by
      rw [hb]
      simp
    obtain ⟨td,htd,he⟩ := List.mem_map.mp hmem
    obtain ⟨rfl,rfl⟩ := Prod.mk.inj he
    refine ⟨td,htd,rfl,(mem_storedAnew U tool).mpr ⟨hfree,b₁.map Prod.snd,b₂.map Prod.snd,?_,?_⟩⟩
    · have hsnd := congrArg (List.map Prod.snd) hb
      rw [List.map_map] at hsnd
      rw [← openedFor_snd U mint key tool w batch]
      exact hsnd.trans (by simp)
    · intro e he
      obtain ⟨b,hbm,rfl⟩ := List.mem_map.mp he
      exact hb₁ b hbm

include hmint in
/-- A new comment that gets a record of its own has it under the id of its thread. -/
lemma newRec_mem_records {d : InlineComment} (hd : d ∈ storedAnew U tool
      ((records key w).map FindingRec.fingerprint) (newComments U w.posted key tool batch)) :
    ∃ td ∈ openedFor U mint key tool w batch,
      newRec U tool td.1.id d ∈ records key (reviewRun U mint pr key tool w batch) := by
  obtain ⟨hfree,ds₁,ds₂,hsplit,hds₁⟩ := (mem_storedAnew U tool).mp hd
  rw [← openedFor_snd U mint key tool w batch] at hsplit
  obtain ⟨z₁,z,hz,rfl,hz'⟩ := List.map_eq_append_iff.mp hsplit
  obtain ⟨td,z₂,rfl,rfl,-⟩ := List.map_eq_cons_iff.mp hz'
  have htd : td ∈ openedFor U mint key tool w batch := by simp [hz]
  refine ⟨td,htd,?_⟩
  rw [(reviewRun_records ht hw.memory batch).2,hz,List.map_append,List.map_cons]
  apply newRec_mem_recordBatch U tool (openedFor_fresh hmint htd).1 hfree
  intro b hb
  obtain ⟨x,hx,rfl⟩ := List.mem_map.mp hb
  exact hds₁ x.2 (List.mem_map_of_mem hx)

/-- A run resolves threads of records only. -/
lemma resolved_mem_host {id : Bytes}
    (h : id ∈ resolvedIDs (reviewRun U mint pr key tool w batch).calls) :
    id ≠ [] ∧ id ∈ w.host.map Thread.id := by
  obtain ⟨m,hm⟩ := hw.memory
  rw [reviewRun,postInline_resolved] at h
  obtain ⟨q,hq,rfl⟩ := List.mem_map.mp (by simpa [resolvedIDs] using h)
  obtain ⟨-,hqm,-,hne,-⟩ := (mem_stalePriors U tool batch [] false).mp hq
  refine ⟨hne,?_⟩
  rw [hm,priorFindings_mem m key tool none ht] at hqm
  obtain ⟨r,hr,rfl⟩ := List.mem_map.mp hqm
  exact (hw.threads r (by rw [records,hm]; exact hr)).2

include hmint in
theorem Consistent.reviewRun : Consistent key (reviewRun U mint pr key tool w batch) := by
  refine ⟨(reviewRun_records ht hw.memory batch).1,fun r hr => ?_⟩
  rw [reviewRun_host,map_close_id,List.map_append,List.mem_append]
  rcases record_origin hmint ht hw hr with hr | ⟨td,htd,rfl,-⟩
  · exact ⟨(hw.threads r hr).1,.inl (hw.threads r hr).2⟩
  · exact ⟨(openedFor_fresh hmint htd).1,
      .inr (List.mem_map_of_mem (List.mem_map_of_mem htd))⟩

include hmint in
/-- A thread just opened is not among those the run resolves. -/
lemma openedFor_notMem_resolved {td : Thread × InlineComment}
    (htd : td ∈ openedFor U mint key tool w batch) :
    td.1.id ∉ resolvedIDs (reviewRun U mint pr key tool w batch).calls :=
  fun hin => (openedFor_fresh hmint htd).2 (resolved_mem_host ht hw hin).2

omit ht hw in
/-- An open thread that the run leaves open makes visible what it shows then. -/
lemma visible_of_open {c : InlineComment} {th : Thread}
    (hth : th ∈ w.host ++ (openedFor U mint key tool w batch).map Prod.fst)
    (hopen : th.resolved = false)
    (hid : th.id ∉ resolvedIDs (reviewRun U mint pr key tool w batch).calls)
    (hshow : Shows U key tool (reviewRun U mint pr key tool w batch) th c) :
    Visible U key tool (reviewRun U mint pr key tool w batch) c := by
  refine ⟨_,?_,(close_resolved _ th).mpr ⟨hopen,hid⟩,hshow⟩
  rw [reviewRun_host]
  exact List.mem_map_of_mem hth

include hmint in
/-- A thread shows after a run what it showed before it. -/
lemma shows_reviewRun_old {th : Thread} (hth : th ∈ w.host) (c : InlineComment) :
    Shows U key tool (reviewRun U mint pr key tool w batch) th c ↔ Shows U key tool w th c := by
  constructor
  · rintro (hsame | ⟨r,hr,hid,hmatch⟩)
    · exact .inl hsame
    · rcases record_origin hmint ht hw hr with hr | ⟨td,htd,rfl,-⟩
      · exact .inr ⟨r,hr,hid,hmatch⟩
      · exact absurd (List.mem_map.mpr ⟨th,hth,hid.symm⟩) (openedFor_fresh hmint htd).2
  · rintro (hsame | ⟨r,hr,hid,hmatch⟩)
    · exact .inl hsame
    · exact .inr ⟨r,mem_records_of_mem ht hw hr,hid,hmatch⟩

include hmint in
/-- What a thread just opened shows is shown by a new comment. -/
lemma shows_reviewRun_new {td : Thread × InlineComment} {c : InlineComment}
    (htd : td ∈ openedFor U mint key tool w batch)
    (hshow : Shows U key tool (reviewRun U mint pr key tool w batch) td.1 c) :
    ∃ d ∈ newComments U w.posted key tool batch, wireComment U tool d = wireComment U tool c ∨
      d ∈ storedAnew U tool ((records key w).map FindingRec.fingerprint)
          (newComments U w.posted key tool batch) ∧
        (newRec U tool [] d).matchesComment U tool c = true := by
  have hmem : ∀ td ∈ openedFor U mint key tool w batch,
      td.2 ∈ newComments U w.posted key tool batch := by
    intro td htd
    rw [← openedFor_snd U mint key tool w batch]
    exact List.mem_map_of_mem htd
  rcases hshow with hsame | ⟨r,hr,hid,hmatch⟩
  · exact ⟨td.2,hmem td htd,.inl ((openedFor_comment htd).symm.trans hsame)⟩
  · rcases record_origin hmint ht hw hr with hr | ⟨td',htd',rfl,hanew⟩
    · exact absurd (hid ▸ (hw.threads r hr).2) (openedFor_fresh hmint htd).2
    · exact ⟨td'.2,hmem td' htd',.inr ⟨hanew,hmatch⟩⟩

include hmint in
/-- What is visible after a run: what an open thread showed that the run left open, and what a new
comment shows. -/
theorem visible_reviewRun_iff (c : InlineComment) :
    Visible U key tool (Orchestrator.reviewRun U mint pr key tool w batch) c ↔
      (∃ th ∈ w.host, th.resolved = false ∧ Shows U key tool w th c ∧
        th.id ∉ resolvedIDs (Orchestrator.reviewRun U mint pr key tool w batch).calls) ∨
      ∃ d ∈ newComments U w.posted key tool batch, wireComment U tool d = wireComment U tool c ∨
        d ∈ storedAnew U tool ((records key w).map FindingRec.fingerprint)
            (newComments U w.posted key tool batch) ∧
          (newRec U tool [] d).matchesComment U tool c = true := by
  constructor
  · rintro ⟨th,hth,hopen,hshow⟩
    rw [reviewRun_host] at hth
    obtain ⟨th,hmem,rfl⟩ := List.mem_map.mp hth
    rw [close_resolved] at hopen
    rcases List.mem_append.mp hmem with hth | hth
    · exact .inl ⟨th,hth,hopen.1,(shows_reviewRun_old hmint ht hw hth c).mp hshow,hopen.2⟩
    · obtain ⟨td,htd,rfl⟩ := List.mem_map.mp hth
      exact .inr (shows_reviewRun_new hmint ht hw htd hshow)
  · have hnew : ∀ td ∈ openedFor U mint key tool w batch,
        Shows U key tool (Orchestrator.reviewRun U mint pr key tool w batch) td.1 c →
        Visible U key tool (Orchestrator.reviewRun U mint pr key tool w batch) c :=
      fun td htd => visible_of_open (List.mem_append_right _ (List.mem_map_of_mem htd))
        (openedFor_unresolved htd) (openedFor_notMem_resolved hmint ht hw htd)
    rintro (⟨th,hth,hopen,hshow,hid⟩ | ⟨d,hd,hsame | ⟨hanew,hmatch⟩⟩)
    · exact visible_of_open (List.mem_append_left _ hth) hopen hid
        ((shows_reviewRun_old hmint ht hw hth c).mpr hshow)
    · rw [← openedFor_snd U mint key tool w batch] at hd
      obtain ⟨td,htd,rfl⟩ := List.mem_map.mp hd
      exact hnew td htd (.inl ((openedFor_comment htd).trans hsame))
    · have hown : ∃ td ∈ openedFor U mint key tool w batch, newRec U tool td.1.id d ∈
          records key (Orchestrator.reviewRun U mint pr key tool w batch) :=
        newRec_mem_records hmint ht hw hanew
      obtain ⟨td,htd,hrec⟩ := hown
      exact hnew td htd (.inr ⟨_,hrec,rfl,hmatch⟩)

/-- A record whose threads are all resolved. -/
structure Buried (key : PRKey) (r : FindingRec) (w : World (List Thread)) : Prop where
  consistent : Consistent key w
  recorded : r ∈ records key w
  closed : ∀ th ∈ w.host, th.id = r.externalID → th.resolved = true

include hmint in
omit hw in
lemma Buried.reviewRun {r : FindingRec} (h : Buried key r w) :
    Buried key r (reviewRun U mint pr key tool w batch) := by
  refine ⟨h.consistent.reviewRun hmint ht,mem_records_of_mem ht h.consistent h.recorded,?_⟩
  intro th hth hid
  rw [reviewRun_host] at hth
  obtain ⟨th₀,hth₀,rfl⟩ := List.mem_map.mp hth
  rcases List.mem_append.mp hth₀ with hold | hnew
  · simp [Thread.close,h.closed th₀ hold hid]
  · obtain ⟨td,htd,rfl⟩ := List.mem_map.mp hnew
    rw [close_id] at hid
    exact absurd (hid ▸ (h.consistent.threads r h.recorded).2) (openedFor_fresh hmint htd).2

include hmint in
lemma buried_of_resolved {r : FindingRec} (hr : r ∈ records key w)
    (hres : r.externalID ∈ resolvedIDs (reviewRun U mint pr key tool w batch).calls) :
    Buried key r (reviewRun U mint pr key tool w batch) := by
  refine ⟨hw.reviewRun hmint ht,mem_records_of_mem ht hw hr,fun th hth hid => ?_⟩
  rw [reviewRun_host] at hth
  obtain ⟨th₀,-,rfl⟩ := List.mem_map.mp hth
  rw [close_id] at hid
  simp [Thread.close,hid,hres]

end History

section Reintroduced
variable {U mint pr key tool}

lemma Buried.notMem_newComments {r : FindingRec} {w : World (List Thread)} (h : Buried key r w)
    (ht : tool ≠ []) {c : InlineComment} (hmatch : r.matchesComment U tool c = true)
    (batch : List InlineComment) : c ∉ newComments U w.posted key tool batch := by
  intro hc
  rw [newComments,if_neg ht] at hc
  have hunknown := (mem_filterNew U _ tool hc).2.1
  obtain ⟨m,hm⟩ := h.consistent.memory
  have hr := h.recorded
  rw [records,hm] at hr
  rw [hm] at hunknown
  have hknown : known U (some { mem := some m }) key tool c = true := List.any_eq_true.mpr ⟨r,hr,hmatch⟩
  simp [hknown] at hunknown

/-- A resolved finding stays gone. Once a run resolved the thread of a record that stands for a
comment, no later run posts the comment again and the thread stays resolved; after a later run the
comment is visible only by a thread that was open and shows it too, or by a new comment that does. -/
theorem resolved_finding_stays_gone (hmint : Fresh mint) {w : World (List Thread)}
    (hw : Consistent key w) (before : List (List InlineComment)) (missing : List InlineComment)
    (between : List (List InlineComment)) (last : List InlineComment) {c : InlineComment}
    {r : FindingRec} (hr : r ∈ records key (Machine.run (reviewRun U mint pr key tool) w before))
    (hmatch : r.matchesComment U tool c = true)
    (hres : r.externalID ∈ resolvedIDs
      (Machine.run (reviewRun U mint pr key tool) w (before ++ [missing])).calls) :
    let old := Machine.run (reviewRun U mint pr key tool) w (before ++ missing :: between)
    let new := reviewRun U mint pr key tool old last
    c ∉ newComments U old.posted key tool last ∧
      (∀ th ∈ new.host, th.id = r.externalID → th.resolved = true) ∧
      (Visible U key tool new c ↔
        (∃ th ∈ old.host, th.resolved = false ∧ Shows U key tool old th c ∧
          th.id ∉ resolvedIDs new.calls) ∨
        ∃ d ∈ newComments U old.posted key tool last, wireComment U tool d = wireComment U tool c ∨
          d ∈ storedAnew U tool ((records key old).map FindingRec.fingerprint)
              (newComments U old.posted key tool last) ∧
            (newRec U tool [] d).matchesComment U tool c = true) := by
  have hrun : ∀ (batches : List (List InlineComment)), tool ≠ [] →
      Consistent key (Machine.run (reviewRun U mint pr key tool) w batches) := fun batches ht =>
    Machine.run_invariant _ (I := Consistent key) (fun _ _ _ h => h.reviewRun hmint ht) hw
  rw [Machine.run_append] at hres
  have ht : tool ≠ [] := by
    rintro rfl
    rw [Machine.run_cons,Machine.run_nil,reviewRun,postInline_resolved] at hres
    simp [stalePriors,resolvedIDs] at hres
  have hburied : Buried key r
      (Machine.run (reviewRun U mint pr key tool) w (before ++ missing :: between)) := by
    rw [Machine.run_append,Machine.run_cons]
    exact Machine.run_invariant _ (I := Buried key r) (fun _ _ _ h => h.reviewRun hmint ht)
      (buried_of_resolved hmint ht (hrun before ht) hr hres)
  intro old new
  exact ⟨hburied.notMem_newComments ht hmatch last,(hburied.reviewRun hmint ht).closed,
    visible_reviewRun_iff hmint ht hburied.consistent c⟩

end Reintroduced

section Regression

/-- Ids longer than all ids in use. -/
def longer (ths : List Thread) : Bytes :=
  List.replicate ((ths.map fun th => th.id.length).sum+1) 116

lemma fresh_longer : Fresh longer := by
  intro ths
  refine ⟨by simp [longer],fun h => ?_⟩
  obtain ⟨th,hth,he⟩ := List.mem_map.mp h
  have hle : th.id.length ≤ (ths.map fun th => th.id.length).sum :=
    List.le_sum_of_mem (List.mem_map_of_mem hth)
  have hlen := congrArg List.length he
  rw [longer,List.length_replicate] at hlen
  omega

/-- Runs of the review tool over an empty store. -/
def reviews (batches : List (List InlineComment)) : World (List Thread) :=
  Machine.run (reviewRun Tables.plain longer examplePR exampleKey (lit "review")) (.ofMemory [] {})
    batches

lemma reviews_start : Consistent exampleKey (.ofMemory [] {} : World (List Thread)) :=
  ⟨⟨{},rfl⟩,fun _ hr => absurd hr List.not_mem_nil⟩

def unclosedRowsRec : FindingRec := newRec Tables.plain (lit "review") (longer []) unclosedRows

lemma reviews_posted_fixed : unclosedRowsRec ∈ records exampleKey (reviews [[unclosedRows]]) ∧
    unclosedRowsRec.externalID ∈ resolvedIDs (reviews [[unclosedRows],[]]).calls := by
  decide +kernel

/-- Posted, fixed and back again: the thread was resolved in between, and after the third run every
thread there is is resolved. -/
theorem reintroduced_finding_hidden : Fresh longer ∧
    unclosedRowsRec.matchesComment Tables.plain (lit "review") unclosedRows = true ∧
    unclosedRowsRec ∈ records exampleKey (reviews [[unclosedRows]]) ∧
    unclosedRowsRec.externalID ∈ resolvedIDs (reviews [[unclosedRows],[]]).calls ∧
    ¬ Visible Tables.plain exampleKey (lit "review") (reviews [[unclosedRows],[],[unclosedRows]])
      unclosedRows := by
  refine ⟨fresh_longer,newRec_matches _ _ _ _,reviews_posted_fixed.1,reviews_posted_fixed.2,?_⟩
  rintro ⟨th,hth,hopen,-⟩
  have hall : ∀ th ∈ (reviews [[unclosedRows],[],[unclosedRows]]).host, th.resolved = true := by
    decide +kernel
  simp [hall th hth] at hopen

theorem reintroduced_finding_not_posted :
    unclosedRows ∉ newComments Tables.plain (reviews [[unclosedRows],[]]).posted exampleKey
      (lit "review") [unclosedRows] :=
  (resolved_finding_stays_gone fresh_longer reviews_start [[unclosedRows]] [] [] [unclosedRows]
    reviews_posted_fixed.1 (newRec_matches _ _ _ _) reviews_posted_fixed.2).1

end Regression

end Orchestrator
