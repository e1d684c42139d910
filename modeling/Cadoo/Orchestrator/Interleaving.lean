import Cadoo.Lib.Machine
import Cadoo.Orchestrator.Summary

/-! Summaries posted at the same time. Every call of `postSummary` is a program of its own that is
taken a step at a time; `summaryMu` is a lock that one of them holds. A schedule names the call that
moves next, and a call that waits for the lock stays where it is. -/
namespace Orchestrator
open Bytes Vcs Findings

/-- How far a call has come. -/
inductive Phase where
  | start
  | waiting
  | locked
  | rendered (body : Bytes)
  | found (body existing : Bytes)
  | created (id : Bytes)
  | leaving
  | done
  deriving DecidableEq

/-- The part under `summaryMu`. -/
def Phase.inside : Phase → Bool
  | locked | rendered _ | found _ _ | created _ | leaving => true
  | start | waiting | done => false

/-- The comment has been written. -/
def Phase.wrote : Phase → Bool
  | created _ | leaving | done => true
  | _ => false

/-- The text that is about to be written. -/
def Phase.text : Phase → Option Bytes
  | rendered body => some body
  | found body _ => some body
  | _ => none

/-- One dispatcher with its calls, one for a tool. -/
structure System (W : Type) where
  world : World W
  holder : Option Bytes := none
  phase : Bytes → Phase := fun _ => .start

variable {W : Type}

def sharedStore (w : World W) : Store := w.posted.getD {}

namespace System

def goto (s : System W) (tool : Bytes) (ph : Phase) (w : World W) : System W :=
  { s with world := w, phase := Function.update s.phase tool ph }

variable (p : Provider W) (pr : PullRequest) (key : PRKey)

/-- The next step of the call that posts a section. -/
def next (s : System W) (j : Section) : System W :=
  match s.phase j.tool with
  | .start =>
    match s.world.posted with
    | none => s.goto j.tool .done (postLegacySummary p pr j.body s.world)
    | some st =>
      if j.tool = [] ∨ st.Enabled = false then
        s.goto j.tool .done (postLegacySummary p pr j.body s.world)
      else s.goto j.tool .waiting { s.world with posted := some (st.PutSection key j.tool j.body).1 }
  | .waiting =>
    if s.holder = none then { s.goto j.tool .locked s.world with holder := some j.tool } else s
  | .locked =>
    let sections := readSections key j.tool j.body (sharedStore s.world)
    s.goto j.tool (.rendered (renderConsolidated sections pr.headSHA)) s.world
  | .rendered body => s.goto j.tool (.found body (existingID key (sharedStore s.world))) s.world
  | .found body existing =>
    if existing ≠ [] then
      match s.world.updateSummaryComment p pr existing body with
      | (none,w) => s.goto j.tool .leaving w
      | (some _,w) => s.goto j.tool (.found body []) w
    else
      match s.world.postSummaryComment p pr body with
      | (.error _,w) => s.goto j.tool .leaving w
      | (.ok id,w) => s.goto j.tool (if id ≠ [] then .created id else .leaving) w
  | .created id =>
    let posted := s.world.posted.map fun st => (st.PutSummaryID key WrapperToolKey id).1
    s.goto j.tool .leaving { s.world with posted := posted }
  | .leaving => { s.goto j.tool .done s.world with holder := none }
  | .done => s

@[simp] lemma goto_world (s : System W) (tool : Bytes) (ph : Phase) (w : World W) :
    (s.goto tool ph w).world = w := rfl

@[simp] lemma goto_holder (s : System W) (tool : Bytes) (ph : Phase) (w : World W) :
    (s.goto tool ph w).holder = s.holder := rfl

@[simp] lemma goto_phase_self (s : System W) (tool : Bytes) (ph : Phase) (w : World W) :
    (s.goto tool ph w).phase tool = ph := by
  simp [goto]

lemma goto_phase_ne (s : System W) {tool other : Bytes} (ph : Phase) (w : World W)
    (h : other ≠ tool) : (s.goto tool ph w).phase other = s.phase other := by
  simp [goto,h]

@[simp] lemma goto_goto (s : System W) (tool : Bytes) (ph ph' : Phase) (w w' : World W) :
    (s.goto tool ph w).goto tool ph' w' = s.goto tool ph' w' := by
  simp [goto]

section Steps
variable {p pr key} {s : System W} {j : Section}

lemma next_legacy (h : s.phase j.tool = .start) (hl : ∀ st, s.world.posted = some st →
    j.tool = [] ∨ st.Enabled = false) :
    s.next p pr key j = s.goto j.tool .done (postLegacySummary p pr j.body s.world) := by
  rw [next,h]
  dsimp only
  split
  · rfl
  · next st hst => rw [if_pos (hl st hst)]

lemma next_start (h : s.phase j.tool = .start) {st : Store} (hst : s.world.posted = some st)
    (hl : ¬ (j.tool = [] ∨ st.Enabled = false)) : s.next p pr key j =
      s.goto j.tool .waiting { s.world with posted := some (st.PutSection key j.tool j.body).1 } := by
  rw [next,h]
  dsimp only
  rw [hst]
  exact if_neg hl

lemma next_waiting (h : s.phase j.tool = .waiting) (hf : s.holder = none) : s.next p pr key j =
    { s.goto j.tool .locked s.world with holder := some j.tool } := by
  rw [next,h]
  exact if_pos hf

lemma next_blocked (h : s.phase j.tool = .waiting) (hf : s.holder ≠ none) :
    s.next p pr key j = s := by
  rw [next,h]
  exact if_neg hf

lemma next_locked (h : s.phase j.tool = .locked) : s.next p pr key j =
    s.goto j.tool (.rendered (renderConsolidated
      (readSections key j.tool j.body (sharedStore s.world)) pr.headSHA)) s.world := by
  rw [next,h]

lemma next_rendered {body : Bytes} (h : s.phase j.tool = .rendered body) : s.next p pr key j =
    s.goto j.tool (.found body (existingID key (sharedStore s.world))) s.world := by
  rw [next,h]

lemma next_found {body existing : Bytes} (h : s.phase j.tool = .found body existing) :
    s.next p pr key j =
      if existing ≠ [] then
        s.goto j.tool (if (s.world.updateSummaryComment p pr existing body).1 = none then .leaving
          else .found body []) (s.world.updateSummaryComment p pr existing body).2
      else s.goto j.tool (match (s.world.postSummaryComment p pr body).1 with
        | .ok id => if id ≠ [] then .created id else .leaving
        | .error _ => .leaving) (s.world.postSummaryComment p pr body).2 := by
  rw [next,h]
  dsimp only
  split
  · cases s.world.updateSummaryComment p pr existing body with
    | mk err w => cases err <;> rfl
  · cases s.world.postSummaryComment p pr body with
    | mk res w => cases res <;> rfl

lemma next_created {id : Bytes} (h : s.phase j.tool = .created id) : s.next p pr key j =
    s.goto j.tool .leaving { s.world with
      posted := s.world.posted.map fun st => (st.PutSummaryID key WrapperToolKey id).1 } := by
  rw [next,h]

lemma next_leaving (h : s.phase j.tool = .leaving) :
    s.next p pr key j = { s.goto j.tool .done s.world with holder := none } := by
  rw [next,h]

lemma next_done (h : s.phase j.tool = .done) : s.next p pr key j = s := by
  rw [next,h]

end Steps

section Solo
variable {p pr key} {s : System W} {j : Section}

/-- The call of a section moving alone. -/
def solo (p : Provider W) (pr : PullRequest) (key : PRKey) (j : Section) (n : ℕ) (s : System W) :
    System W := Machine.run (next p pr key) s (List.replicate n j)

lemma solo_succ (n : ℕ) : solo p pr key j (n+1) s = solo p pr key j n (s.next p pr key j) := rfl

lemma solo_done (h : s.phase j.tool = .done) (n : ℕ) : solo p pr key j n s = s := by
  induction n with
  | zero => rfl
  | succ n ih => rw [solo_succ,next_done h,ih]

lemma solo_leaving (h : s.phase j.tool = .leaving) (n : ℕ) :
    solo p pr key j (n+1) s = { s.goto j.tool .done s.world with holder := none } := by
  rw [solo_succ,next_leaving h,solo_done (by simp)]

lemma solo_create {body : Bytes} (h : s.phase j.tool = .found body []) (n : ℕ) :
    solo p pr key j (n+3) s =
      { s.goto j.tool .done (createOverview p pr key body s.world) with holder := none } := by
  rw [solo_succ,next_found h,if_neg (by simp),createOverview]
  cases hres : s.world.postSummaryComment p pr body with
  | mk res w =>
    cases res with
    | error e =>
      dsimp only
      rw [solo_leaving (by simp)]
      simp
    | ok id =>
      dsimp only
      by_cases hid : id ≠ []
      · rw [if_pos hid,if_pos hid,solo_succ,next_created (goto_phase_self _ _ _ _),solo_leaving (by simp)]
        simp
      · rw [if_neg hid,if_neg hid,solo_leaving (by simp)]
        simp

lemma solo_found {body existing : Bytes} (h : s.phase j.tool = .found body existing) (n : ℕ) :
    solo p pr key j (n+4) s = { s.goto j.tool .done (if existing ≠ [] then
        match s.world.updateSummaryComment p pr existing body with
        | (none,w) => w
        | (some _,w) => createOverview p pr key body w
      else createOverview p pr key body s.world) with holder := none } := by
  by_cases he : existing ≠ []
  · rw [solo_succ,next_found h,if_pos he,if_pos he]
    cases hres : s.world.updateSummaryComment p pr existing body with
    | mk err w =>
      cases err with
      | none =>
        dsimp only
        rw [if_pos rfl,solo_leaving (by simp)]
        simp
      | some e =>
        dsimp only
        rw [if_neg (by simp),solo_create (goto_phase_self _ _ _ _)]
        simp
  · rw [if_neg he]
    obtain rfl : existing = [] := by simpa using he
    exact solo_create h (n+1)

lemma solo_locked (h : s.phase j.tool = .locked) (n : ℕ) : solo p pr key j (n+6) s =
    { s.goto j.tool .done (publishOverview p pr key j.tool j.body (sharedStore s.world) s.world)
      with holder := none } := by
  rw [solo_succ,next_locked h,solo_succ,next_rendered (goto_phase_self _ _ _ _),
    solo_found (goto_phase_self _ _ _ _),goto_goto,goto_goto]
  rfl

/-- A call that moves alone does what `postSummary` does. -/
theorem solo_eq_postSummary (h : s.phase j.tool = .start) (hf : s.holder = none) (n : ℕ) :
    solo p pr key j (n+8) s =
      { s.goto j.tool .done (postSummary p pr key j.tool j.body s.world) with holder := none } := by
  rw [solo_succ,postSummary]
  cases hst : s.world.posted with
  | none =>
    rw [next_legacy h fun st hs => by simp [hst] at hs,solo_done (by simp)]
    simp [goto,hf]
  | some st =>
    dsimp only
    by_cases hl : j.tool = [] ∨ st.Enabled = false
    · rw [if_pos hl,next_legacy h fun st' hs => by
        obtain rfl : st = st' := Option.some.inj (hst.symm.trans hs)
        exact hl]
      rw [solo_done (by simp)]
      simp [goto,hf]
    · rw [if_neg hl,next_start h hst hl,solo_succ,next_waiting (by simp) (by simpa using hf),
        solo_locked (by simp [goto])]
      simp only [goto,Function.update_idem]
      rfl

end Solo

end System

end Orchestrator
