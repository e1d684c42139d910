import Cadoo.Lib.GoInt
import Cadoo.Lib.GoMap
import Cadoo.Vcs.Types

/-! A conversation with a model that may call tools. The model and the tools answer out of a state of their own, of
any type, so that they may answer anything. -/
namespace Agent
open Bytes Vcs

inductive Role where
  | system | user | assistant | tool
  deriving DecidableEq

structure ToolCall where
  ID : Bytes
  Name : Bytes
  Arguments : Bytes
  deriving DecidableEq

structure Message where
  Role : Role
  Content : Bytes
  ToolCalls : List ToolCall := []
  ToolCallID : Bytes := []
  deriving DecidableEq

structure ToolDef where
  Name : Bytes
  Description : Bytes
  Parameters : Bytes
  deriving DecidableEq

/-- The temperature is kept as its bits. -/
structure ChatRequest where
  Model : Bytes
  Messages : List Message
  Tools : List ToolDef
  Temperature : BitVec 32
  MaxTokens : ℤ
  deriving DecidableEq

structure Usage where
  PromptTokens : ℤ := 0
  CompletionTokens : ℤ := 0
  TotalTokens : ℤ := 0
  deriving DecidableEq

structure ChatResponse where
  Content : Bytes := []
  ToolCalls : List ToolCall := []
  Usage : Usage := {}
  deriving DecidableEq

structure Tool (W : Type) where
  Name : Bytes
  Description : Bytes
  Schema : Bytes
  Run : Bytes → W → Except Err Bytes × W

/-- `quote` is what `%q` makes of a text. -/
structure Loop (W : Type) where
  LLM : ChatRequest → W → Except Err ChatResponse × W
  quote : Bytes → Bytes
  Model : Bytes := []
  System : Bytes := []
  Tools : List (Tool W) := []
  MaxIter : ℤ := 0
  MaxTokens : ℤ := 0
  Temperature : BitVec 32 := 0

structure Result where
  Content : Bytes := []
  Iterations : ℕ := 0
  Usage : Usage := {}
  ToolCalls : ℕ := 0
  deriving DecidableEq

inductive RunError where
  | chat (err : Err)
  | maxIterations (maxIter : ℤ)
  deriving DecidableEq

/-- A run so far, with the requests it has made. -/
structure State (W : Type) where
  msgs : List Message
  out : Result := {}
  requests : List ChatRequest := []
  world : W

def Usage.add (u v : Usage) : Usage where
  PromptTokens := GoInt.wrap (u.PromptTokens+v.PromptTokens)
  CompletionTokens := GoInt.wrap (u.CompletionTokens+v.CompletionTokens)
  TotalTokens := GoInt.wrap (u.TotalTokens+v.TotalTokens)

namespace Loop
variable {W : Type} (l : Loop W)

def toolDefs : List ToolDef := l.Tools.map fun t => ⟨t.Name,t.Description,t.Schema⟩

/-- Of tools with one name the last one counts. -/
def byName : GoMap Bytes (Tool W) := .ofEntries (l.Tools.map fun t => (t.Name,t))

def maxIter : ℤ := if l.MaxIter = 0 then 8 else l.MaxIter

def request (msgs : List Message) : ChatRequest where
  Model := l.Model
  Messages := msgs
  Tools := l.toolDefs
  Temperature := l.Temperature
  MaxTokens := l.MaxTokens

/-- The content of the message for a call. -/
def answer (tc : ToolCall) (w : W) : Bytes × W :=
  match l.byName.lookup tc.Name with
  | none => (lit "error: unknown tool " ++ l.quote tc.Name,w)
  | some tool =>
    match tool.Run tc.Arguments w with
    | (.ok result,w) => (result,w)
    | (.error err,w) => (lit "error: " ++ err,w)

def execute (s : State W) (tc : ToolCall) : State W :=
  let (content,w) := l.answer tc s.world
  { s with
    msgs := s.msgs ++ [{ Role := .tool, ToolCallID := tc.ID, Content := content }]
    out := { s.out with ToolCalls := s.out.ToolCalls+1 }
    world := w }

/-- The rounds that are left, of which so many have been made. -/
def rounds : ℕ → ℕ → State W → State W × Option RunError
  | 0, _, s => (s,some (.maxIterations l.maxIter))
  | left+1, iter, s =>
    let req := l.request s.msgs
    match l.LLM req s.world with
    | (.error err,w) => ({ s with requests := s.requests ++ [req], world := w },some (.chat err))
    | (.ok resp,w) =>
      let out := { s.out with Iterations := iter+1, Usage := s.out.Usage.add resp.Usage }
      let s := { s with out := out, requests := s.requests ++ [req], world := w }
      if resp.ToolCalls = [] then ({ s with out := { out with Content := resp.Content } },none)
      else
        let echo : Message := { Role := .assistant, Content := resp.Content, ToolCalls := resp.ToolCalls }
        rounds left (iter+1) (resp.ToolCalls.foldl l.execute { s with msgs := s.msgs ++ [echo] })

def Run (userPrompt : Bytes) (w : W) : State W × Option RunError :=
  l.rounds l.maxIter.toNat 0 { msgs := [⟨.system,l.System,[],[]⟩,⟨.user,userPrompt,[],[]⟩], world := w }

end Loop

/-- Every message with tool calls is followed by an answer to each of them, in their order, and by no other answer. -/
def Answered (msgs : List Message) : Prop := ∀ u m v, msgs = u ++ m :: v → m.Role = .assistant →
  ∃ answers rest, v = answers ++ rest ∧ answers.map Message.ToolCallID = m.ToolCalls.map ToolCall.ID ∧
    (∀ a ∈ answers, a.Role = .tool) ∧ ∀ r ∈ rest.head?, r.Role ≠ .tool

/-- The messages of tools. -/
def answersIn (msgs : List Message) : ℕ := msgs.countP fun m => m.Role = .tool

/-- A run as it should be at any time. -/
structure Orderly {W : Type} (s : State W) : Prop where
  answered : Answered s.msgs
  counted : s.out.ToolCalls = answersIn s.msgs
  requests : ∀ r ∈ s.requests, Answered r.Messages ∧ r.Messages <+: s.msgs
  grows : s.requests.Pairwise fun r r' => r.Messages <+: r'.Messages

lemma answersIn_append (xs ys : List Message) : answersIn (xs ++ ys) = answersIn xs + answersIn ys :=
  List.countP_append

lemma answersIn_tools {answers : List Message} (h : ∀ a ∈ answers, a.Role = .tool) :
    answersIn answers = answers.length := List.countP_eq_length.mpr fun a ha => decide_eq_true (h a ha)

/-- A turn of the model with the answers to its calls goes on in order. -/
lemma answered_append {msgs answers : List Message} {m : Message} (h : Answered msgs) (hm : m.Role = .assistant)
    (hids : answers.map Message.ToolCallID = m.ToolCalls.map ToolCall.ID) (htool : ∀ a ∈ answers, a.Role = .tool) :
    Answered (msgs ++ m :: answers) := by
  intro u x v heq hx
  rcases append_eq_append_cons heq with ⟨r,hmsgs,rfl⟩ | ⟨r,rfl,hr⟩
  · obtain ⟨as,rest,rfl,has,hrole,hrest⟩ := h u x r hmsgs hx
    refine ⟨as,rest ++ m :: answers,List.append_assoc _ _ _,has,hrole,?_⟩
    cases rest with
    | nil =>
      rintro _ ⟨⟩
      rw [hm]
      decide
    | cons y rest => exact hrest
  · cases r with
    | nil =>
      obtain ⟨rfl,rfl⟩ := List.cons_eq_cons.mp hr
      exact ⟨answers,[],(List.append_nil _).symm,hids,htool,fun _ hnone => by cases hnone⟩
    | cons y r =>
      obtain ⟨-,hanswers⟩ := List.cons_eq_cons.mp hr
      have hrole := htool x (by rw [hanswers]; simp)
      rw [hx] at hrole
      cases hrole

namespace Loop
variable {W : Type} (l : Loop W)

/-- One call adds its answer and nothing else. -/
lemma execute_spec (s : State W) (tc : ToolCall) : ∃ content, (l.execute s tc).msgs =
    s.msgs ++ [{ Role := .tool, ToolCallID := tc.ID, Content := content }] ∧
    (l.execute s tc).out.ToolCalls = s.out.ToolCalls+1 ∧ (l.execute s tc).requests = s.requests :=
  ⟨_,rfl,rfl,rfl⟩

/-- The calls of a turn are all answered, in their order. -/
lemma foldl_execute (calls : List ToolCall) (s : State W) : ∃ answers,
    (calls.foldl l.execute s).msgs = s.msgs ++ answers ∧
    answers.map Message.ToolCallID = calls.map ToolCall.ID ∧ (∀ a ∈ answers, a.Role = .tool) ∧
    (calls.foldl l.execute s).out.ToolCalls = s.out.ToolCalls+answers.length ∧
    (calls.foldl l.execute s).requests = s.requests := by
  induction calls generalizing s with
  | nil => exact ⟨[],(List.append_nil _).symm,rfl,List.forall_mem_nil _,rfl,rfl⟩
  | cons tc calls ih =>
    obtain ⟨content,hmsgs,hcount,hrequests⟩ := l.execute_spec s tc
    obtain ⟨answers,hmsgs',hids,htool,hcount',hrequests'⟩ := ih (l.execute s tc)
    refine ⟨{ Role := .tool, ToolCallID := tc.ID, Content := content } :: answers,?_,?_,?_,?_,?_⟩
    · rw [List.foldl_cons,hmsgs',hmsgs,List.append_assoc]
      rfl
    · rw [List.map_cons,List.map_cons,hids]
    · exact List.forall_mem_cons.mpr ⟨rfl,htool⟩
    · rw [List.foldl_cons,hcount',hcount,List.length_cons]
      omega
    · rw [List.foldl_cons,hrequests',hrequests]

/-- A request with the messages so far keeps the run in order. -/
lemma orderly_request {s : State W} (h : Orderly s) (out : Result) (hout : out.ToolCalls = s.out.ToolCalls) (w : W) :
    Orderly { s with out := out, requests := s.requests ++ [l.request s.msgs], world := w } where
  answered := h.answered
  counted := hout.trans h.counted
  requests := List.forall_mem_append.mpr ⟨h.requests,List.forall_mem_singleton.mpr ⟨h.answered,List.prefix_refl _⟩⟩
  grows := List.pairwise_append.mpr ⟨h.grows,List.pairwise_singleton _ _,fun r hr r' hr' => by
    obtain rfl := List.mem_singleton.mp hr'
    exact (h.requests r hr).2⟩

/-- A turn of the model and the execution of its calls keep the run in order. -/
lemma orderly_turn {s : State W} (h : Orderly s) {m : Message} (hm : m.Role = .assistant) :
    Orderly (m.ToolCalls.foldl l.execute { s with msgs := s.msgs ++ [m] }) := by
  obtain ⟨answers,hmsgs,hids,htool,hcount,hrequests⟩ := l.foldl_execute m.ToolCalls { s with msgs := s.msgs ++ [m] }
  have hall : (m.ToolCalls.foldl l.execute { s with msgs := s.msgs ++ [m] }).msgs = s.msgs ++ m :: answers := by
    rw [hmsgs,List.append_assoc]
    rfl
  have hnone : answersIn [m] = 0 := by
    rw [answersIn,List.countP_singleton,hm]
    rfl
  refine ⟨?_,?_,?_,?_⟩
  · rw [hall]
    exact answered_append h.answered hm hids htool
  · rw [hmsgs,hcount,answersIn_append,answersIn_append,hnone,answersIn_tools htool,h.counted,Nat.add_zero]
  · rw [hrequests,hall]
    exact fun r hr => ⟨(h.requests r hr).1,(h.requests r hr).2.trans (List.prefix_append _ _)⟩
  · rw [hrequests]
    exact h.grows

/-- The rounds that are left keep the run in order, with one request each at most. -/
lemma rounds_orderly (left iter : ℕ) {s : State W} (h : Orderly s) :
    Orderly (l.rounds left iter s).1 ∧ (l.rounds left iter s).1.requests.length ≤ s.requests.length+left := by
  induction left generalizing iter s with
  | zero => exact ⟨h,Nat.le_refl _⟩
  | succ left ih =>
    have hlength : ∀ req : ChatRequest, (s.requests ++ [req]).length = s.requests.length+1 :=
      fun req => List.length_append
    rw [rounds]
    dsimp only
    split
    · next err w _ =>
      refine ⟨l.orderly_request h s.out rfl w,?_⟩
      dsimp only
      rw [hlength]
      omega
    · next resp w _ =>
      split
      · refine ⟨l.orderly_request h { s.out with
          Content := resp.Content, Iterations := iter+1, Usage := s.out.Usage.add resp.Usage } rfl w,?_⟩
        dsimp only
        rw [hlength]
        omega
      · have hturn := l.orderly_turn (l.orderly_request h { s.out with
          Iterations := iter+1, Usage := s.out.Usage.add resp.Usage } rfl w)
          (m := { Role := .assistant, Content := resp.Content, ToolCalls := resp.ToolCalls }) rfl
        obtain ⟨hdone,hfew⟩ := ih (iter+1) hturn
        obtain ⟨answers,-,-,-,-,hrequests⟩ := l.foldl_execute resp.ToolCalls { s with
          msgs := s.msgs ++ [{ Role := .assistant, Content := resp.Content, ToolCalls := resp.ToolCalls }]
          out := { s.out with Iterations := iter+1, Usage := s.out.Usage.add resp.Usage }
          requests := s.requests ++ [l.request s.msgs], world := w }
        refine ⟨hdone,hfew.trans ?_⟩
        dsimp only
        rw [hrequests,hlength]
        omega

/-- Whatever the model and the tools do, every call is answered in its place, the messages only grow, the requests
are no more than the rounds, and the calls are counted. -/
theorem Run_orderly (userPrompt : Bytes) (w : W) :
    let s := (l.Run userPrompt w).1
    (∀ r ∈ s.requests, Answered r.Messages) ∧ (s.requests.Pairwise fun r r' => r.Messages <+: r'.Messages) ∧
      s.requests.length ≤ l.maxIter.toNat ∧ s.out.ToolCalls = answersIn s.msgs := by
  have hstart : Orderly { msgs := [⟨.system,l.System,[],[]⟩,⟨.user,userPrompt,[],[]⟩], world := w : State W } := by
    refine ⟨fun u m v heq hm => ?_,rfl,List.forall_mem_nil _,List.Pairwise.nil⟩
    have hmem : m ∈ u ++ m :: v := by simp
    rw [← heq] at hmem
    rcases List.mem_pair.mp hmem with rfl | rfl
    · cases hm
    · cases hm
  obtain ⟨horderly,hfew⟩ := l.rounds_orderly l.maxIter.toNat 0 hstart
  refine ⟨fun r hr => (horderly.requests r hr).1,horderly.grows,hfew.trans_eq (Nat.zero_add _),horderly.counted⟩

end Loop

end Agent
