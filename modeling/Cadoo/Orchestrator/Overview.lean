import Cadoo.Orchestrator.Interleaving

/-! One overview comment for all tools. In whatever order the calls of `postSummary` take their steps,
the comment is created once, all other writes edit it, and the last write shows every section: a call
stores its section before it asks for the lock, and reads all sections only while it has it. -/
namespace Orchestrator
open Bytes Vcs Findings

variable {W : Type} (p : Provider W) (pr : PullRequest) (key : PRKey)

/-- Every call that writes a summary succeeds, and a created comment has an id. -/
structure SummariesSucceed : Prop where
  create : ∀ body host, ∃ id, id ≠ [] ∧ (p.postSummaryComment pr body host).1 = .ok id
  edit : ∀ id body host, (p.updateSummaryComment pr id body host).1 = none

def memoryOf (w : World W) : MemoryStore := (sharedStore w).mem.getD {}

def overviewID (w : World W) : Bytes := (memoryOf w).summaryID key WrapperToolKey

variable (jobs : List Section) (base : List Call)

/-- The overview has been created under an id and edited since; `rest` are the texts of the edits. -/
structure Written (id first : Bytes) (rest : List Bytes) (s : System W) : Prop where
  id_ne : id ≠ []
  created : ∃ host, (p.postSummaryComment pr first host).1 = .ok id
  calls : s.world.calls = base ++ .postSummaryComment first :: rest.map (.updateSummaryComment id)
  stored : overviewID key s.world = id ∨
    overviewID key s.world = [] ∧ ∃ j ∈ jobs, s.phase j.tool = .created id
  pending : ∀ j ∈ jobs, ∀ id', s.phase j.tool = .created id' → id' = id
  shown : ∀ j ∈ jobs, (s.phase j.tool).wrote = true →
    renderSection j <:+: (first :: rest).getLast (List.cons_ne_nil first rest)

structure Unwritten (s : System W) : Prop where
  calls : s.world.calls = base
  stored : overviewID key s.world = []
  wrote : ∀ j ∈ jobs, (s.phase j.tool).wrote = false

def OverviewOK (s : System W) : Prop :=
  Unwritten key jobs base s ∨ ∃ id first rest, Written p pr key jobs base id first rest s

/-- What holds between any two steps. -/
structure Coherent (s : System W) : Prop where
  inMemory : s.world.posted = some { mem := some (memoryOf s.world) }
  written : ∀ j ∈ jobs, s.phase j.tool ≠ .start →
    ((memoryOf s.world).sections.get key).get j.tool = j.body
  exclusive : ∀ j ∈ jobs, (s.phase j.tool).inside = true → s.holder = some j.tool
  covers : ∀ j ∈ jobs, ∀ body, (s.phase j.tool).text = some body → ∀ i ∈ jobs,
    i = j ∨ (s.phase i.tool).wrote = true → renderSection i <:+: body
  looked : ∀ j ∈ jobs, ∀ body existing, s.phase j.tool = .found body existing →
    existing = overviewID key s.world
  overview : OverviewOK p pr key jobs base s

section Phases
variable {p pr key jobs base} (hd : (jobs.map Section.tool).Nodup) {i j : Section} (hi : i ∈ jobs)
  (hj : j ∈ jobs)
include hd hi hj

lemma eq_of_tool_eq (h : i.tool = j.tool) : i = j := List.inj_on_of_nodup_map hd hi hj h

lemma phase_goto (s : System W) (ph : Phase) (w : World W) :
    (s.goto j.tool ph w).phase i.tool = if i = j then ph else s.phase i.tool := by
  split
  · next h => rw [h,System.goto_phase_self]
  · next h => exact System.goto_phase_ne s ph w fun he => h (eq_of_tool_eq hd hi hj he)

/-- No two calls are inside at once. -/
lemma Coherent.alone {s : System W} (h : Coherent p pr key jobs base s)
    (hij : (s.phase i.tool).inside = true) (hjj : (s.phase j.tool).inside = true) : i = j := by
  have he := (h.exclusive i hi hij).symm.trans (h.exclusive j hj hjj)
  exact eq_of_tool_eq hd hi hj (Option.some.inj he)

end Phases

/-- A step that writes nothing keeps the overview as it is. -/
lemma OverviewOK.frame {s t : System W} (h : OverviewOK p pr key jobs base s)
    (hcalls : t.world.calls = s.world.calls) (hid : overviewID key t.world = overviewID key s.world)
    (hwrote : ∀ j ∈ jobs, (t.phase j.tool).wrote = (s.phase j.tool).wrote)
    (hcreated : ∀ j ∈ jobs, ∀ id, t.phase j.tool = .created id ↔ s.phase j.tool = .created id) :
    OverviewOK p pr key jobs base t := by
  rcases h with h | ⟨id,first,rest,h⟩
  · exact .inl ⟨hcalls.trans h.calls,hid.trans h.stored,fun j hj => (hwrote j hj).trans (h.wrote j hj)⟩
  · refine .inr ⟨id,first,rest,h.id_ne,h.created,hcalls.trans h.calls,?_,?_,?_⟩
    · rw [hid]
      refine h.stored.imp_right fun ⟨hnil,j,hj,hc⟩ => ⟨hnil,j,hj,(hcreated j hj id).mpr hc⟩
    · exact fun j hj id' hc => h.pending j hj id' ((hcreated j hj id').mp hc)
    · exact fun j hj hw => h.shown j hj ((hwrote j hj).symm.trans hw)

section Steps
variable {p pr key jobs base} (hd : (jobs.map Section.tool).Nodup) {s : System W} {j : Section}
  (hj : j ∈ jobs) (h : Coherent p pr key jobs base s)
include hd hj h

/-- A step that leaves the world alone: what is left to check is the lock and what the call knows. -/
lemma Coherent.move {ph : Phase} {holder : Option Bytes} (hstart : s.phase j.tool ≠ .start)
    (hwrote : ph.wrote = (s.phase j.tool).wrote)
    (hcreated : ∀ id, ph = .created id ↔ s.phase j.tool = .created id)
    (hlock : ∀ i ∈ jobs, (if i = j then ph else s.phase i.tool).inside = true →
      holder = some i.tool)
    (hcovers : ∀ body, ph.text = some body → ∀ i ∈ jobs, i = j ∨ (s.phase i.tool).wrote = true →
      renderSection i <:+: body)
    (hlooked : ∀ body existing, ph = .found body existing → existing = overviewID key s.world) :
    Coherent p pr key jobs base { s.goto j.tool ph s.world with holder := holder } := by
  have hphase : ∀ i ∈ jobs, ({ s.goto j.tool ph s.world with holder := holder } : System W).phase
      i.tool = if i = j then ph else s.phase i.tool := fun i hi => phase_goto hd hi hj s ph s.world
  have hsame : ∀ i ∈ jobs, (if i = j then ph else s.phase i.tool).wrote = (s.phase i.tool).wrote := by
    intro i hi
    split
    · next he => rw [he,hwrote]
    · rfl
  refine ⟨h.inMemory,fun i hi hne => ?_,fun i hi hin => ?_,fun i hi body ht k hk hor => ?_,
    fun i hi body existing hf => ?_,h.overview.frame p pr key jobs base rfl rfl ?_ ?_⟩
  · rw [hphase i hi] at hne
    split at hne
    · next he => exact he ▸ h.written j hj hstart
    · exact h.written i hi hne
  · rw [hphase i hi] at hin
    exact hlock i hi hin
  · rw [hphase i hi] at ht
    rw [hphase k hk,hsame k hk] at hor
    split at ht
    · next he => exact hcovers body ht k hk (he ▸ hor)
    · exact h.covers i hi body ht k hk hor
  · rw [hphase i hi] at hf
    split at hf
    · exact hlooked body existing hf
    · exact h.looked i hi body existing hf
  · intro i hi
    rw [hphase i hi,hsame i hi]
  · intro i hi id
    rw [hphase i hi]
    split
    · next he => rw [he,hcreated]
    · rfl

/-- A step under the lock after which the call has no text to write any more. -/
lemma Coherent.settle {ph : Phase} {w : World W} (hin : (s.phase j.tool).inside = true)
    (htext : ph.text = none)
    (hmem : w.posted = some { mem := some (memoryOf w) })
    (hsections : (memoryOf w).sections = (memoryOf s.world).sections)
    (hover : OverviewOK p pr key jobs base (s.goto j.tool ph w)) :
    Coherent p pr key jobs base (s.goto j.tool ph w) := by
  have hphase : ∀ i ∈ jobs, (s.goto j.tool ph w).phase i.tool =
      if i = j then ph else s.phase i.tool := fun i hi => phase_goto hd hi hj s ph w
  have hnone : ∀ i ∈ jobs, ∀ body, ((s.goto j.tool ph w).phase i.tool).text ≠ some body := by
    intro i hi body ht
    rw [hphase i hi] at ht
    split at ht
    · simp [htext] at ht
    · next hne =>
      apply hne
      refine h.alone hd hi hj ?_ hin
      cases hc : s.phase i.tool <;> simp_all [Phase.text,Phase.inside]
  refine ⟨hmem,fun i hi hne => ?_,fun i hi hin' => ?_,fun i hi body ht => absurd ht (hnone i hi body),
    fun i hi body existing hf => absurd (by rw [hf]; rfl) (hnone i hi body),hover⟩
  · rw [System.goto_world,hsections]
    rw [hphase i hi] at hne
    split at hne
    · next he =>
      rw [he]
      exact h.written j hj fun hs => by simp [hs,Phase.inside] at hin
    · exact h.written i hi hne
  · rw [hphase i hi] at hin'
    split at hin'
    · next he => exact he ▸ h.exclusive j hj hin
    · exact h.exclusive i hi hin'

lemma Coherent.next_start (hbody : j.tool ≠ []) (hs : s.phase j.tool = .start) :
    Coherent p pr key jobs base (s.next p pr key j) := by
  have hen : ¬ (j.tool = [] ∨ ({ mem := some (memoryOf s.world) } : Store).Enabled = false) := by
    simp [hbody,Store.Enabled]
  rw [System.next_start hs h.inMemory hen]
  have hphase : ∀ (w : World W), ∀ i ∈ jobs, (s.goto j.tool .waiting w).phase i.tool =
      if i = j then .waiting else s.phase i.tool := fun w i hi => phase_goto hd hi hj s .waiting w
  refine ⟨rfl,fun i hi hne => ?_,fun i hi hin => ?_,fun i hi body ht k hk hor => ?_,
    fun i hi body existing hf => ?_,h.overview.frame p pr key jobs base rfl rfl ?_ ?_⟩
  · change (GoMap.get (GoMap.get (AList.insert key _ _) key) i.tool) = i.body
    rw [GoMap.get_insert]
    by_cases he : i = j
    · rw [he,GoMap.get_insert]
    · rw [hphase _ i hi,if_neg he] at hne
      rw [GoMap.get_insert_ne _ _ _ _ fun ht => he (eq_of_tool_eq hd hi hj ht)]
      exact h.written i hi hne
  · rw [hphase _ i hi] at hin
    split at hin
    · simp [Phase.inside] at hin
    · exact h.exclusive i hi hin
  · rw [hphase _ i hi] at ht
    rw [hphase _ k hk] at hor
    split at ht
    · simp [Phase.text] at ht
    · refine h.covers i hi body ht k hk (hor.imp_right fun hw => ?_)
      split at hw
      · simp [Phase.wrote] at hw
      · exact hw
  · rw [hphase _ i hi] at hf
    split at hf
    · simp at hf
    · exact h.looked i hi body existing hf
  · intro i hi
    rw [hphase _ i hi]
    split
    · next he => rw [he,hs]; rfl
    · rfl
  · intro i hi id
    rw [hphase _ i hi]
    split
    · next he => simp [he,hs]
    · rfl

lemma Coherent.next_waiting (hs : s.phase j.tool = .waiting) :
    Coherent p pr key jobs base (s.next p pr key j) := by
  by_cases hf : s.holder = none
  · rw [System.next_waiting hs hf]
    refine h.move hd hj (by simp [hs]) (by simp [hs,Phase.wrote]) (by simp [hs]) ?_ (by simp [Phase.text])
      (by simp)
    intro i hi hin
    split at hin
    · next he => rw [he]
    · have := h.exclusive i hi hin
      simp [hf] at this
  · rw [System.next_blocked hs hf]
    exact h

/-- Under the lock a call sees its own section and those of all calls that have written. -/
lemma Coherent.next_locked (hne : ∀ i ∈ jobs, i.tool ≠ [] ∧ i.body ≠ [])
    (hs : s.phase j.tool = .locked) : Coherent p pr key jobs base (s.next p pr key j) := by
  rw [System.next_locked hs]
  refine h.move hd hj (by simp [hs]) (by simp [hs,Phase.wrote]) (by simp [hs]) ?_ ?_ (by simp)
  · intro i hi hin
    split at hin
    · next he => rw [he]; exact h.exclusive j hj (by rw [hs]; rfl)
    · exact h.exclusive i hi hin
  · intro body ht i hi hor
    obtain rfl := Option.some.inj ht
    apply renderSection_isInfix
    have hread : readSections key j.tool j.body (sharedStore s.world) =
        (memoryOf s.world).allSections key := by
      rw [sharedStore,h.inMemory]
      rfl
    rw [hread,MemoryStore.mem_allSections]
    refine ⟨(hne i hi).1,(hne i hi).2,h.written i hi fun hst => ?_⟩
    rcases hor with rfl | hw
    · simp [hs] at hst
    · simp [hst,Phase.wrote] at hw

lemma Coherent.next_rendered {body : Bytes} (hs : s.phase j.tool = .rendered body) :
    Coherent p pr key jobs base (s.next p pr key j) := by
  rw [System.next_rendered hs]
  refine h.move hd hj (by simp [hs]) (by simp [hs,Phase.wrote]) (by simp [hs]) ?_ ?_ ?_
  · intro i hi hin
    split at hin
    · next he => rw [he]; exact h.exclusive j hj (by rw [hs]; rfl)
    · exact h.exclusive i hi hin
  · intro b ht
    obtain rfl := Option.some.inj ht
    exact h.covers j hj body (by rw [hs]; rfl)
  · intro b existing hf
    obtain ⟨-,rfl⟩ := Phase.found.inj hf
    rw [sharedStore,h.inMemory]
    rfl

lemma Coherent.next_leaving (hs : s.phase j.tool = .leaving) :
    Coherent p pr key jobs base (s.next p pr key j) := by
  rw [System.next_leaving hs]
  refine h.move hd hj (by simp [hs]) (by simp [hs,Phase.wrote]) (by simp [hs]) ?_ (by simp [Phase.text])
    (by simp)
  intro i hi hin
  split at hin
  · simp [Phase.inside] at hin
  · next he => exact absurd (h.alone hd hi hj hin (by rw [hs]; rfl)) he

/-- Storing the id of the comment. -/
lemma Coherent.next_created {id : Bytes} (hs : s.phase j.tool = .created id) :
    Coherent p pr key jobs base (s.next p pr key j) := by
  rw [System.next_created hs,h.inMemory]
  refine h.settle hd hj (by rw [hs]; rfl) rfl rfl rfl ?_
  have hphase : ∀ (w : World W), ∀ i ∈ jobs, (s.goto j.tool .leaving w).phase i.tool =
      if i = j then .leaving else s.phase i.tool := fun w i hi => phase_goto hd hi hj s .leaving w
  rcases h.overview with ho | ⟨id',first,rest,ho⟩
  · have := ho.wrote j hj
    simp [hs,Phase.wrote] at this
  · obtain rfl := ho.pending j hj id hs
    refine .inr ⟨id,first,rest,ho.id_ne,ho.created,ho.calls,.inl ?_,fun i hi id' hc => ?_,
      fun i hi hw => ?_⟩
    · exact GoMap.get_insert _ _ _
    · rw [hphase _ i hi] at hc
      split at hc
      · simp at hc
      · exact ho.pending i hi id' hc
    · rw [hphase _ i hi] at hw
      split at hw
      · next he => exact ho.shown i hi (by rw [he,hs]; rfl)
      · exact ho.shown i hi hw

/-- After a write under the lock the last text shows every section that counts as written. -/
lemma Coherent.shown_after {body existing : Bytes} (hs : s.phase j.tool = .found body existing)
    {ph : Phase} {w : World W} {i : Section} (hi : i ∈ jobs)
    (hw : ((s.goto j.tool ph w).phase i.tool).wrote = true) : renderSection i <:+: body := by
  apply h.covers j hj body (by rw [hs]; rfl) i hi
  rw [phase_goto hd hi hj] at hw
  split at hw
  · next he => exact .inl he
  · exact .inr hw

/-- The comment is known and edited. -/
lemma Coherent.next_edit (hp : SummariesSucceed p pr) {body existing : Bytes}
    (hs : s.phase j.tool = .found body existing) (hex : existing ≠ []) :
    Coherent p pr key jobs base (s.next p pr key j) := by
  have hin : (s.phase j.tool).inside = true := by rw [hs]; rfl
  have hlook := h.looked j hj body existing hs
  have hedit : (s.world.updateSummaryComment p pr existing body).1 = none :=
    hp.edit existing body s.world.host
  rw [System.next_found hs,if_pos hex,if_pos hedit]
  refine h.settle hd hj hin rfl h.inMemory rfl ?_
  rcases h.overview with ho | ⟨id,first,rest,ho⟩
  · exact absurd (hlook.trans ho.stored) hex
  · have hid : existing = id := by
      rcases ho.stored with hid | ⟨hnil,-⟩
      · exact hlook.trans hid
      · exact absurd (hlook.trans hnil) hex
    subst hid
    refine .inr ⟨existing,first,rest ++ [body],ho.id_ne,ho.created,?_,.inl hlook.symm,
      fun i hi id' hc => ?_,fun i hi hw => ?_⟩
    · rw [System.goto_world,World.updateSummaryComment_calls,ho.calls]
      simp
    · rw [phase_goto hd hi hj] at hc
      split at hc
      · simp at hc
      · exact ho.pending i hi id' hc
    · have hlast : (first :: (rest ++ [body])).getLast (List.cons_ne_nil _ _) = body :=
        List.getLast_append_singleton (first :: rest)
      rw [hlast]
      exact h.shown_after hd hj hs hi hw

/-- No comment is known, so this is the one creation: under the lock no other call can have created
the comment without storing its id. -/
lemma Coherent.next_create (hp : SummariesSucceed p pr) {body : Bytes}
    (hs : s.phase j.tool = .found body []) : Coherent p pr key jobs base (s.next p pr key j) := by
  have hin : (s.phase j.tool).inside = true := by rw [hs]; rfl
  have hlook := h.looked j hj body [] hs
  obtain ⟨id,hid,hres⟩ := hp.create body s.world.host
  have hres' : (s.world.postSummaryComment p pr body).1 = .ok id := hres
  rw [System.next_found hs,if_neg (by simp),hres']
  dsimp only
  rw [if_pos hid]
  refine h.settle hd hj hin rfl h.inMemory rfl ?_
  rcases h.overview with ho | ⟨id',first,rest,ho⟩
  · refine .inr ⟨id,body,[],hid,⟨s.world.host,hres⟩,?_,.inr ⟨hlook.symm,j,hj,?_⟩,
      fun i hi id' hc => ?_,fun i hi hw => h.shown_after hd hj hs hi hw⟩
    · rw [System.goto_world,World.postSummaryComment_calls,ho.calls]
      rfl
    · rw [phase_goto hd hj hj,if_pos rfl]
    · rw [phase_goto hd hi hj] at hc
      split at hc
      · exact (Phase.created.inj hc).symm
      · have := ho.wrote i hi
        simp [hc,Phase.wrote] at this
  · rcases ho.stored with hid' | ⟨-,i,hi,hc⟩
    · exact absurd (hid'.symm.trans hlook.symm) ho.id_ne
    · obtain rfl := h.alone hd hi hj (by rw [hc]; rfl) hin
      simp [hs] at hc

/-- The write: an edit when the comment is known, and else the one creation. -/
lemma Coherent.next_found (hp : SummariesSucceed p pr) {body existing : Bytes}
    (hs : s.phase j.tool = .found body existing) :
    Coherent p pr key jobs base (s.next p pr key j) := by
  by_cases hex : existing ≠ []
  · exact h.next_edit hd hj hp hs hex
  · obtain rfl : existing = [] := by simpa using hex
    exact h.next_create hd hj hp hs

end Steps

section Runs
variable {p pr key jobs base}

/-- Every step of every call keeps the system coherent. -/
theorem Coherent.next (hp : SummariesSucceed p pr) (hd : (jobs.map Section.tool).Nodup)
    (hne : ∀ i ∈ jobs, i.tool ≠ [] ∧ i.body ≠ []) {s : System W}
    (h : Coherent p pr key jobs base s) {j : Section} (hj : j ∈ jobs) :
    Coherent p pr key jobs base (s.next p pr key j) := by
  cases hs : s.phase j.tool with
  | start => exact h.next_start hd hj (hne j hj).1 hs
  | waiting => exact h.next_waiting hd hj hs
  | locked => exact h.next_locked hd hj hne hs
  | rendered body => exact h.next_rendered hd hj hs
  | found body existing => exact h.next_found hd hj hp hs
  | created id => exact h.next_created hd hj hs
  | leaving => exact h.next_leaving hd hj hs
  | done =>
    rw [System.next_done hs]
    exact h

/-- Before any call has moved. -/
lemma coherent_start {w : World W} {m : MemoryStore} (hw : w.posted = some { mem := some m })
    (hid : m.summaryID key WrapperToolKey = []) :
    Coherent p pr key jobs w.calls { world := w } := by
  have hm : memoryOf w = m := by
    rw [memoryOf,sharedStore,hw]
    rfl
  refine ⟨by rw [hm]; exact hw,by simp,by simp [Phase.inside],by simp [Phase.text],by simp,
    .inl ⟨rfl,?_,by simp [Phase.wrote]⟩⟩
  rw [overviewID,hm]
  exact hid

/-- One overview. When all calls are done, in whatever order they took their steps, the comment was
created by one of them and edited by the others, and its last text shows the section of every tool. -/
theorem one_overview (hp : SummariesSucceed p pr) (hd : (jobs.map Section.tool).Nodup)
    (hne : ∀ j ∈ jobs, j.tool ≠ [] ∧ j.body ≠ []) {w : World W} {m : MemoryStore}
    (hw : w.posted = some { mem := some m }) (hid : m.summaryID key WrapperToolKey = [])
    {schedule : List Section} (hschedule : ∀ j ∈ schedule, j ∈ jobs)
    (hdone : ∀ j ∈ jobs,
      (Machine.run (System.next p pr key) { world := w } schedule).phase j.tool = .done) :
    let calls := (Machine.run (System.next p pr key) { world := w } schedule).world.calls
    jobs = [] ∧ calls = w.calls ∨
      ∃ id first rest, (∃ host, (p.postSummaryComment pr first host).1 = .ok id) ∧
        calls = w.calls ++ .postSummaryComment first :: rest.map (.updateSummaryComment id) ∧
        ∀ j ∈ jobs, renderSection j <:+: (first :: rest).getLast (List.cons_ne_nil first rest) := by
  have h : Coherent p pr key jobs w.calls
      (Machine.run (System.next p pr key) { world := w } schedule) :=
    Machine.run_invariant (System.next p pr key) (I := Coherent p pr key jobs w.calls)
      (fun _ j hj h => h.next hp hd hne (hschedule j hj)) (coherent_start hw hid)
  intro calls
  rcases h.overview with ho | ⟨id,first,rest,ho⟩
  · left
    refine ⟨List.eq_nil_iff_forall_not_mem.mpr fun j hj => ?_,ho.calls⟩
    have := ho.wrote j hj
    simp [hdone j hj,Phase.wrote] at this
  · right
    refine ⟨id,first,rest,ho.created,ho.calls,fun j hj => ho.shown j hj ?_⟩
    rw [hdone j hj]
    rfl

end Runs

section TwoTools

/-- A host that keeps one comment and its text. -/
def noteHost : Provider Bytes where
  kind := KindGitLab
  fetchPullRequest repo number _ := .ok { repoFullName := repo, number := number }
  listChangedFiles _ _ := .ok []
  postSummaryComment _ body _ := (.ok (lit "note-1"),body)
  updateSummaryComment _ _ body _ := (none,body)
  postInlineComments _ _ note := (([],none),note)
  resolveThread _ _ note := (none,note)
  editPullRequestBody _ _ note := (none,note)
  upsertCheckRun _ _ note := (none,note)
  diffBetween := none

def describeSection : Section := ⟨lit "describe",lit "Adds a cache."⟩
def reviewSection : Section := ⟨lit "review",lit "One finding."⟩

/-- Both store their sections, then the review goes first and the description after it. -/
def racing : List Section :=
  [describeSection,reviewSection,reviewSection,describeSection] ++ List.replicate 6 reviewSection ++
    List.replicate 7 describeSection

theorem racing_one_overview :
    let calls := (Machine.run (System.next noteHost examplePR exampleKey)
      { world := .ofMemory [] {} } racing).world.calls
    [describeSection,reviewSection] = [] ∧ calls = [] ∨
      ∃ id first rest, (∃ host, (noteHost.postSummaryComment examplePR first host).1 = .ok id) ∧
        calls = [] ++ .postSummaryComment first :: rest.map (.updateSummaryComment id) ∧
        ∀ j ∈ [describeSection,reviewSection],
          renderSection j <:+: (first :: rest).getLast (List.cons_ne_nil first rest) :=
  one_overview ⟨fun _ _ => ⟨lit "note-1",by decide,rfl⟩,fun _ _ _ => rfl⟩ (by decide) (by decide) rfl rfl
    (by decide) (by decide +kernel)

end TwoTools

end Orchestrator
