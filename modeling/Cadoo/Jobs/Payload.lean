import Cadoo.Findings.Persist
import Cadoo.Jobs.Queue
import Cadoo.Orchestrator.Dispatcher
import Cadoo.ReleaseDocs.Dispatcher

/-! Jobs as JSON, and the two ways they travel: as the payload of the in-memory queue, and as the arguments of a
River job. River's table keeps an object, not its text, and the order of its members may change. The in-memory queue
hands tool jobs to a dispatcher, if there is one, and has release jobs logged and nothing else. -/
namespace Jobs
open Bytes Utf8 Vcs Findings

/-- The payload of a tool job, with the fields that its run does not read. -/
structure ToolJob extends Orchestrator.ToolJob where
  installID : Bytes := []
  headSHA : Bytes := []
  trigger : Bytes := []
  deriving DecidableEq

/-- River's payload of a tool job. -/
structure ToolArgs where
  provider : Bytes
  tool : Bytes
  installID : Bytes
  repoFullName : Bytes
  prNumber : ℤ
  headSHA : Bytes
  trigger : Bytes
  args : Bytes
  deriving DecidableEq

/-- River's payload of a release job. -/
structure ReleaseArgs where
  provider : Bytes
  repo : Bytes
  org : Bytes
  fromRef : Bytes
  toRef : Bytes
  deriving DecidableEq

/-- The object of both payloads of a tool job; the arguments are left out when there are none. -/
def toolMembers (a : ToolArgs) : List (Bytes × Json) :=
  [(lit "provider",.str a.provider),(lit "tool",.str a.tool),(lit "install_id",.str a.installID),
    (lit "repo_full_name",.str a.repoFullName),(lit "pr_number",.num a.prNumber 0),
    (lit "head_sha",.str a.headSHA),(lit "trigger",.str a.trigger)] ++
    if a.args = [] then [] else [(lit "args",.str a.args)]

def toolOfMembers (ms : List (Bytes × Json)) : Option ToolArgs := do
  let provider ← field stringOfJson [] ms (lit "provider")
  let tool ← field stringOfJson [] ms (lit "tool")
  let installID ← field stringOfJson [] ms (lit "install_id")
  let repoFullName ← field stringOfJson [] ms (lit "repo_full_name")
  let prNumber ← field intOfJson 0 ms (lit "pr_number")
  let headSHA ← field stringOfJson [] ms (lit "head_sha")
  let trigger ← field stringOfJson [] ms (lit "trigger")
  let args ← field stringOfJson [] ms (lit "args")
  some ⟨provider,tool,installID,repoFullName,prNumber,headSHA,trigger,args⟩

def releaseMembers (a : ReleaseArgs) : List (Bytes × Json) :=
  [(lit "provider",.str a.provider),(lit "repo",.str a.repo),(lit "org",.str a.org),
    (lit "from_ref",.str a.fromRef),(lit "to_ref",.str a.toRef)]

def releaseOfMembers (ms : List (Bytes × Json)) : Option ReleaseArgs := do
  let provider ← field stringOfJson [] ms (lit "provider")
  let repo ← field stringOfJson [] ms (lit "repo")
  let org ← field stringOfJson [] ms (lit "org")
  let fromRef ← field stringOfJson [] ms (lit "from_ref")
  let toRef ← field stringOfJson [] ms (lit "to_ref")
  some ⟨provider,repo,org,fromRef,toRef⟩

/-- Reading a struct: `null` leaves it as it is, and nothing but an object fills it. -/
def structOfJson {α : Type} (f : List (Bytes × Json) → Option α) : Json → Option α
  | .obj ms => f ms
  | .null => f []
  | _ => none

def marshal (ms : List (Bytes × Json)) : Bytes := Json.print (.obj ms)

def unmarshal {α : Type} (f : List (Bytes × Json) → Option α) (text : Bytes) : Option α :=
  (Json.parse text).bind (structOfJson f)

namespace ToolJob

/-- The arguments `buildEnqueue` hands to River. -/
def riverArgs (j : ToolJob) : ToolArgs :=
  ⟨j.provider,j.tool,j.installID,j.repoFullName,j.prNumber,j.headSHA,j.trigger,j.args⟩

/-- The job `Work` makes of River's arguments. -/
def ofArgs (a : ToolArgs) : ToolJob where
  toToolJob := ⟨a.provider,a.tool,a.repoFullName,a.prNumber,a.args⟩
  installID := a.installID
  headSHA := a.headSHA
  trigger := a.trigger

def Kind : Bytes := lit "tool"

/-- The JSON of a job; the tags of `ToolArgs` are the same. -/
def payload (j : ToolJob) : Bytes := marshal (toolMembers j.riverArgs)

/-- The job decoded from the queue's payload, or from River's arguments. -/
def ofPayload (text : Bytes) : Option ToolJob := (unmarshal toolOfMembers text).map ofArgs

def envelope (j : ToolJob) : Envelope := ⟨Kind,j.payload⟩

/-- Valid text in every field, and a number that is a machine integer. -/
structure Plain (j : ToolJob) : Prop where
  provider : valid j.provider = true
  tool : valid j.tool = true
  installID : valid j.installID = true
  repoFullName : valid j.repoFullName = true
  prNumber : int64Ok j.prNumber = true
  headSHA : valid j.headSHA = true
  trigger : valid j.trigger = true
  args : valid j.args = true

end ToolJob

namespace ReleaseJob
open ReleaseDocs (ReleaseJob)

def riverArgs (j : ReleaseJob) : ReleaseArgs := ⟨j.provider,j.repo,j.org,j.fromRef,j.toRef⟩

def ofArgs (a : ReleaseArgs) : ReleaseJob := ⟨a.provider,a.repo,a.org,a.fromRef,a.toRef⟩

def Kind : Bytes := lit "release_docs"

def payload (j : ReleaseJob) : Bytes := marshal (releaseMembers (riverArgs j))

def ofPayload (text : Bytes) : Option ReleaseJob := (unmarshal releaseOfMembers text).map ofArgs

def envelope (j : ReleaseJob) : Envelope := ⟨Kind,payload j⟩

structure Plain (j : ReleaseJob) : Prop where
  provider : valid j.provider = true
  repo : valid j.repo = true
  org : valid j.org = true
  fromRef : valid j.fromRef = true
  toRef : valid j.toRef = true

end ReleaseJob

/-- A run of one of the two dispatchers. -/
inductive Dispatch where
  | tool (j : ToolJob)
  | release (r : ReleaseDocs.ReleaseJob)

/-- What `buildEnqueue` registers: the dispatcher, and two functions that write to the log. -/
inductive Handler where
  | dispatcher
  | noop
  | logOnly
  deriving DecidableEq

/-- The run that a handler starts for a payload. -/
def Handler.Handle : Handler → Bytes → Option Dispatch
  | dispatcher, payload => (ToolJob.ofPayload payload).map .tool
  | noop, _ => none
  | logOnly, _ => none

/-- The handlers of the in-memory queue that `buildEnqueue` makes; there is a dispatcher when a host is configured. -/
def handlers (dispatcher : Bool) : GoMap Bytes Handler :=
  .ofEntries [if dispatcher then (ToolJob.Kind,.dispatcher) else (lit "noop",.noop),(ReleaseJob.Kind,.logOnly)]

/-- The run that comes of a job on the in-memory queue. -/
def inMemory (dispatcher : Bool) (e : Envelope) : Option Dispatch :=
  ((handlers dispatcher).lookup e.kind).bind fun h => h.Handle e.payload

/-- River's workers: `Work` starts a run with the arguments that the table gives back. -/
def toolWork (args : Bytes) : Option Dispatch := (ToolJob.ofPayload args).map .tool
def releaseWork (args : Bytes) : Option Dispatch := (ReleaseJob.ofPayload args).map .release

/-- A table that may refuse the text of an object, and else gives back a text of the same members in any order. -/
def Keeps (store : Bytes → Option Bytes) (text : Bytes) : Prop :=
  ∀ ms kept, Json.parse text = some (.obj ms) → store text = some kept →
    ∃ ms', Json.parse kept = some (.obj ms') ∧ ms'.Perm ms

section Members

/-- With distinct keys the order of the members does not matter. -/
lemma lookup_perm {V : Type} {ms ms' : List (Bytes × V)} (h : ms.Perm ms') (hnd : (ms.map Prod.fst).Nodup)
    (k : Bytes) : ms.lookup k = ms'.lookup k := by
  induction h with
  | nil => rfl
  | cons m _ ih =>
    rw [List.lookup_cons,List.lookup_cons,ih (List.nodup_cons.mp hnd).2]
  | swap m n ms =>
    have hne : n.1 ≠ m.1 := fun h => (List.nodup_cons.mp hnd).1 (by simp [h])
    rw [List.lookup_cons,List.lookup_cons,List.lookup_cons,List.lookup_cons]
    by_cases hm : k = m.1
    · have hn : (k == n.1) = false := beq_false_of_ne fun hn => hne (hn.symm.trans hm)
      rw [hn,beq_iff_eq.mpr hm]
    · rw [beq_false_of_ne hm]
  | trans h _ ih ih' => rw [ih hnd,ih' ((h.map Prod.fst).nodup_iff.mp hnd)]

lemma member_perm {ms ms' : List (Bytes × Json)} (h : ms'.Perm ms) (hnd : (ms.map Prod.fst).Nodup) :
    member ms' = member ms := by
  funext name
  have hrev : (ms'.reverse).Perm ms.reverse := (List.reverse_perm ms').trans (h.trans (List.reverse_perm ms).symm)
  refine lookup_perm hrev ?_ name
  rw [List.map_reverse,List.nodup_reverse]
  exact (h.map Prod.fst).nodup_iff.mpr hnd

lemma field_congr {V : Type} {ms ms' : List (Bytes × Json)} (h : member ms' = member ms) (f : Json → Option V)
    (zero : V) : field f zero ms' = field f zero ms := by
  funext name
  rw [field,field,h]

lemma parse_marshal {ms : List (Bytes × Json)} (hms : Json.repairedMembers ms = ms) :
    Json.parse (marshal ms) = some (.obj ms) := by
  rw [marshal,Json.parse_print,Json.repaired,hms]

/-- A queue that hands on the text itself. -/
lemma keeps_some (text : Bytes) : Keeps some text :=
  fun ms _ hms hkept => ⟨ms,Option.some.inj hkept ▸ hms,.refl ms⟩

/-- An object that a table gives back is read as the one put in. -/
lemma unmarshal_kept {α : Type} {f : List (Bytes × Json) → Option α} {store : Bytes → Option Bytes}
    {ms : List (Bytes × Json)} (hms : Json.repairedMembers ms = ms) (hstore : Keeps store (marshal ms))
    (hf : ∀ ms ms', member ms' = member ms → f ms' = f ms) (hnd : (ms.map Prod.fst).Nodup) {text : Bytes}
    (h : store (marshal ms) = some text) : unmarshal f text = f ms := by
  obtain ⟨ms',hms',hperm⟩ := hstore ms text (parse_marshal hms) h
  rw [unmarshal,hms']
  exact hf ms ms' (member_perm hperm hnd)

/-- The order in which Postgres keeps the members of an object: shorter keys first. -/
def jsonbOrder (m n : Bytes × Json) : Bool :=
  m.1.length < n.1.length || m.1.length = n.1.length && !less n.1 m.1

/-- The `jsonb` column, on objects of texts and integers in which no key is repeated. -/
def jsonb (text : Bytes) : Option Bytes :=
  match Json.parse text with
  | some (.obj ms) => some (marshal (ms.mergeSort jsonbOrder))
  | _ => none

lemma keeps_jsonb {ms : List (Bytes × Json)} (hms : Json.repairedMembers ms = ms) : Keeps jsonb (marshal ms) := by
  intro ms₁ kept hms₁ hkept
  rw [parse_marshal hms] at hms₁
  obtain rfl := Json.obj.inj (Option.some.inj hms₁)
  rw [jsonb,parse_marshal hms] at hkept
  obtain rfl := Option.some.inj hkept
  refine ⟨ms.mergeSort jsonbOrder,parse_marshal ?_,List.mergeSort_perm _ _⟩
  rw [Json.repairedMembers_eq_map] at hms ⊢
  refine (List.map_congr_left fun m hm => ?_).trans (List.map_id _)
  exact List.map_inj_left.mp (hms.trans (List.map_id _).symm) m (List.mem_mergeSort.mp hm)

end Members

section Tool
variable {j : ToolJob}

lemma toolOfMembers_congr (ms ms' : List (Bytes × Json)) (h : member ms' = member ms) :
    toolOfMembers ms' = toolOfMembers ms := by
  simp only [toolOfMembers,field_congr h]

lemma nodup_toolMembers (a : ToolArgs) : ((toolMembers a).map Prod.fst).Nodup := by
  rw [toolMembers]
  split <;> exact of_decide_eq_true rfl

lemma ToolJob.Plain.members (h : j.Plain) : Json.repairedMembers (toolMembers j.riverArgs) = toolMembers j.riverArgs := by
  rw [toolMembers,Json.repairedMembers_eq_map,List.map_append]
  congr 1
  · simp only [ToolJob.riverArgs,List.map_cons,List.map_nil,Json.repairedMember,repair_lit,Json.repaired,
      Json.repair_of_valid h.provider,Json.repair_of_valid h.tool,Json.repair_of_valid h.installID,
      Json.repair_of_valid h.repoFullName,Json.repair_of_valid h.headSHA,Json.repair_of_valid h.trigger]
  · split
    · rfl
    · simp only [ToolJob.riverArgs,List.map_cons,List.map_nil,Json.repairedMember,repair_lit,Json.repaired,
        Json.repair_of_valid h.args]

lemma toolOfMembers_toolMembers {a : ToolArgs} (h : int64Ok a.prNumber = true) :
    toolOfMembers (toolMembers a) = some a := by
  have hbind : toolOfMembers (toolMembers a) =
      (intOfJson (.num a.prNumber 0)).bind fun n => some { a with prNumber := n } := by
    obtain ⟨provider,tool,installID,repo,n,head,trigger,args⟩ := a
    rw [toolMembers]
    by_cases hargs : args = [] <;> simp only [hargs,if_true,if_false] <;> rfl
  rw [hbind,intOfJson_num h]
  rfl

/-- What a table gives back of a tool job's arguments is decoded to the job. -/
lemma tool_kept (h : j.Plain) {store : Bytes → Option Bytes} (hstore : Keeps store j.payload)
    {text : Bytes} (htext : store j.payload = some text) : ToolJob.ofPayload text = some j := by
  rw [ToolJob.ofPayload,unmarshal_kept h.members hstore toolOfMembers_congr (nodup_toolMembers _) htext,
    toolOfMembers_toolMembers h.prNumber]
  rfl

/-- The dispatcher reads the job that was enqueued. -/
lemma ToolJob.Plain.ofPayload (h : j.Plain) : ToolJob.ofPayload j.payload = some j :=
  tool_kept h (keeps_some _) rfl

end Tool

section Release
open ReleaseDocs (ReleaseJob)
variable {j : ReleaseJob}

lemma releaseOfMembers_congr (ms ms' : List (Bytes × Json)) (h : member ms' = member ms) :
    releaseOfMembers ms' = releaseOfMembers ms := by
  simp only [releaseOfMembers,field_congr h]

lemma ReleaseJob.Plain.members (h : ReleaseJob.Plain j) :
    Json.repairedMembers (releaseMembers (ReleaseJob.riverArgs j)) = releaseMembers (ReleaseJob.riverArgs j) := by
  simp only [releaseMembers,ReleaseJob.riverArgs,Json.repairedMembers_eq_map,List.map_cons,List.map_nil,
    Json.repairedMember,repair_lit,Json.repaired,Json.repair_of_valid h.provider,Json.repair_of_valid h.repo,
    Json.repair_of_valid h.org,Json.repair_of_valid h.fromRef,Json.repair_of_valid h.toRef]

lemma release_kept (h : ReleaseJob.Plain j) {store : Bytes → Option Bytes}
    (hstore : Keeps store (ReleaseJob.payload j)) {text : Bytes} (htext : store (ReleaseJob.payload j) = some text) :
    ReleaseJob.ofPayload text = some j := by
  rw [ReleaseJob.ofPayload,unmarshal_kept h.members hstore releaseOfMembers_congr (of_decide_eq_true rfl) htext]
  rfl

end Release

lemma handlers_tool (dispatcher : Bool) :
    (handlers dispatcher).lookup ToolJob.Kind = if dispatcher then some .dispatcher else none := by
  cases dispatcher <;> rfl

lemma handlers_release (dispatcher : Bool) : (handlers dispatcher).lookup ReleaseJob.Kind = some .logOnly := by
  cases dispatcher <;> rfl

open ReleaseDocs (ReleaseJob) in
/-- Through River's table both kinds of job start the run of their dispatcher with every field as it was enqueued.
Through the in-memory queue a tool job does so when there is a dispatcher, and is dropped otherwise; a release job
starts no run there. -/
theorem jobs_delivered {j : ToolJob} {r : ReleaseJob} (hj : j.Plain) (hr : ReleaseJob.Plain r)
    {store : Bytes → Option Bytes} (htool : Keeps store j.payload) (hrelease : Keeps store (ReleaseJob.payload r)) :
    (∀ args, store j.payload = some args → toolWork args = some (.tool j)) ∧
    (∀ args, store (ReleaseJob.payload r) = some args → releaseWork args = some (.release r)) ∧
    (∀ dispatcher, inMemory dispatcher j.envelope = if dispatcher then some (.tool j) else none) ∧
    ∀ dispatcher, inMemory dispatcher (ReleaseJob.envelope r) = none := by
  refine ⟨fun args hargs => ?_,fun args hargs => ?_,fun dispatcher => ?_,fun dispatcher => ?_⟩
  · rw [toolWork,tool_kept hj htool hargs]
    rfl
  · rw [releaseWork,release_kept hr hrelease hargs]
    rfl
  · rw [inMemory,ToolJob.envelope,handlers_tool]
    cases dispatcher with
    | false => rfl
    | true => rw [if_pos rfl,if_pos rfl,Option.bind_some,Handler.Handle,hj.ofPayload,Option.map_some]
  · rw [inMemory,ReleaseJob.envelope,handlers_release]
    rfl

section Example
open ReleaseDocs (ReleaseJob)

def exampleTool : ToolJob := ToolJob.ofArgs
  ⟨lit "github",lit "ask",[],lit "o/r",7,lit "c0",lit "command",lit "what is \"this\"?"⟩

def exampleRelease : ReleaseJob := ⟨lit "gitlab",lit "g/p",[],[],lit "v1.0.0"⟩

lemma exampleTool_plain : exampleTool.Plain where
  provider := valid_encode "github".toList
  tool := valid_encode "ask".toList
  installID := rfl
  repoFullName := valid_encode "o/r".toList
  prNumber := rfl
  headSHA := valid_encode "c0".toList
  trigger := valid_encode "command".toList
  args := valid_encode "what is \"this\"?".toList

lemma exampleRelease_plain : ReleaseJob.Plain exampleRelease where
  provider := valid_encode "gitlab".toList
  repo := valid_encode "g/p".toList
  org := rfl
  fromRef := rfl
  toRef := valid_encode "v1.0.0".toList

theorem examples_delivered :
    (∀ args, jsonb exampleTool.payload = some args → toolWork args = some (.tool exampleTool)) ∧
    (∀ args, jsonb (ReleaseJob.payload exampleRelease) = some args →
      releaseWork args = some (.release exampleRelease)) ∧
    (∀ dispatcher, inMemory dispatcher exampleTool.envelope = if dispatcher then some (.tool exampleTool) else none) ∧
    ∀ dispatcher, inMemory dispatcher (ReleaseJob.envelope exampleRelease) = none :=
  jobs_delivered exampleTool_plain exampleRelease_plain (keeps_jsonb exampleTool_plain.members)
    (keeps_jsonb exampleRelease_plain.members)

end Example

end Jobs
