import Mathlib.Algebra.Ring.Nat
import Cadoo.Lib.Bytes
import Cadoo.Lib.GoMap
import Cadoo.Lib.Steps

/-! The in-memory job queue: callers that enqueue and register, and loops of `Run` that take jobs out, in any
interleaving. -/
namespace Jobs
open Bytes Steps

/-- A job as it waits: its kind and its JSON. -/
structure Envelope where
  kind : Bytes
  payload : Bytes
  deriving DecidableEq

/-- The size of the channel's buffer. -/
def capacity : ℕ := 1024

/-- `H` are the handlers. The buffer never holds more than it has room for. -/
structure MemQueue (H : Type) where
  handlers : GoMap Bytes H
  ch : List Envelope
  room : ch.length ≤ capacity

namespace MemQueue
variable {H : Type}

def NewMemory : MemQueue H := ⟨∅,[],Nat.zero_le _⟩

def Register (q : MemQueue H) (kind : Bytes) (h : H) : MemQueue H := ⟨q.handlers.insert kind h,q.ch,q.room⟩

/-- The send of `Enqueue`; it waits while the buffer is full. -/
def Enqueue (q : MemQueue H) (e : Envelope) : Option (MemQueue H) :=
  if h : q.ch.length < capacity then some ⟨q.handlers,q.ch ++ [e],by rw [List.length_append]; exact h⟩ else none

/-- The receive of `Run`; it waits while the buffer is empty. -/
def receive (q : MemQueue H) : Option (Envelope × MemQueue H) :=
  match q with
  | ⟨_,[],_⟩ => none
  | ⟨handlers,e :: rest,room⟩ => some (e,⟨handlers,rest,Nat.le_of_succ_le room⟩)

variable {q r : MemQueue H} {e : Envelope}

lemma Enqueue_spec (h : q.Enqueue e = some r) : r.ch = q.ch ++ [e] ∧ r.handlers = q.handlers := by
  rw [Enqueue] at h
  split at h
  · obtain rfl := Option.some.inj h
    exact ⟨rfl,rfl⟩
  · exact absurd h (by simp)

lemma receive_spec : q.receive = some (e,r) ↔ q.ch = e :: r.ch ∧ r.handlers = q.handlers := by
  obtain ⟨handlers,ch,room⟩ := q
  obtain ⟨handlers',ch',room'⟩ := r
  cases ch with
  | nil => simp [receive]
  | cons f rest =>
    rw [receive,Option.some_inj,Prod.mk.injEq,MemQueue.mk.injEq,List.cons.injEq]
    exact ⟨fun h => ⟨⟨h.1,h.2.2⟩,h.2.1.symm⟩,fun h => ⟨h.1.1,h.2.symm,h.1.2⟩⟩

end MemQueue

/-- Where a loop of `Run` is: at its `select`, with a job it has not looked up, or inside of a handler. -/
inductive Loop (H : Type) where
  | selecting
  | holding (e : Envelope)
  | handling (h : H) (e : Envelope)

/-- The job a loop has in hand. -/
def Loop.inHand {H : Type} : Loop H → List Envelope
  | selecting => []
  | holding e | handling _ e => [e]

/-- The steps a loop still takes for the job in its hand. -/
def Loop.steps {H : Type} : Loop H → ℕ
  | selecting => 0
  | holding _ => 2
  | handling _ _ => 1

/-- The queue with its loops, and what has happened: the jobs `Enqueue` took, those received, and those done
with, each with the handler that had it or none. -/
structure System (H : Type) where
  queue : MemQueue H
  loops : List (Loop H)
  accepted : List Envelope := []
  received : List Envelope := []
  done : List (Option H × Envelope) := []

inductive Event (H : Type) where
  | register (kind : Bytes) (h : H)
  | enqueue (e : Envelope)
  | receive (loop : ℕ)
  | lookUp (loop : ℕ)
  | finish (loop : ℕ)

/-- A step of one of the loops. -/
def Event.ofLoop {H : Type} : Event H → Bool
  | register _ _ | enqueue _ => false
  | receive _ | lookUp _ | finish _ => true

namespace System
variable {H : Type}

/-- A new queue with a number of loops. -/
def start (n : ℕ) : System H := ⟨.NewMemory,List.replicate n .selecting,[],[],[]⟩

def step (s : System H) : Event H → Option (System H)
  | .register kind h => some { s with queue := s.queue.Register kind h }
  | .enqueue e => (s.queue.Enqueue e).map fun q => { s with queue := q, accepted := s.accepted ++ [e] }
  | .receive i =>
    match s.loops[i]?, s.queue.receive with
    | some .selecting, some (e,q) =>
      some { s with queue := q, loops := s.loops.set i (.holding e), received := s.received ++ [e] }
    | _, _ => none
  | .lookUp i =>
    match s.loops[i]? with
    | some (.holding e) =>
      match s.queue.handlers.lookup e.kind with
      | some h => some { s with loops := s.loops.set i (.handling h e) }
      | none => some { s with loops := s.loops.set i .selecting, done := s.done ++ [(none,e)] }
    | _ => none
  | .finish i =>
    match s.loops[i]? with
    | some (.handling h e) => some { s with loops := s.loops.set i .selecting, done := s.done ++ [(some h,e)] }
    | _ => none

/-- The jobs that loops have in hand. -/
def inHand (s : System H) : List Envelope := s.loops.flatMap Loop.inHand

/-- The jobs done with, in order. -/
def finished (s : System H) : List Envelope := s.done.map Prod.snd

variable {s t : System H}

/-- All that a step can do. -/
lemma step_cases {ev : Event H} (h : s.step ev = some t) :
    (∃ kind hd, ev = .register kind hd ∧ t = { s with queue := s.queue.Register kind hd }) ∨
    (∃ e q, ev = .enqueue e ∧ q.ch = s.queue.ch ++ [e] ∧ q.handlers = s.queue.handlers ∧
      t = { s with queue := q, accepted := s.accepted ++ [e] }) ∨
    (∃ i e q, ev = .receive i ∧ s.loops[i]? = some .selecting ∧ s.queue.ch = e :: q.ch ∧
      q.handlers = s.queue.handlers ∧
      t = { s with queue := q, loops := s.loops.set i (.holding e), received := s.received ++ [e] }) ∨
    (∃ i e hd, ev = .lookUp i ∧ s.loops[i]? = some (.holding e) ∧ s.queue.handlers.lookup e.kind = some hd ∧
      t = { s with loops := s.loops.set i (.handling hd e) }) ∨
    (∃ i e, ev = .lookUp i ∧ s.loops[i]? = some (.holding e) ∧ s.queue.handlers.lookup e.kind = none ∧
      t = { s with loops := s.loops.set i .selecting, done := s.done ++ [(none,e)] }) ∨
    ∃ i e hd, ev = .finish i ∧ s.loops[i]? = some (.handling hd e) ∧
      t = { s with loops := s.loops.set i .selecting, done := s.done ++ [(some hd,e)] } := by
  cases ev with
  | register kind hd => exact .inl ⟨kind,hd,rfl,(Option.some.inj h).symm⟩
  | enqueue e =>
    obtain ⟨q,hq,rfl⟩ := Option.map_eq_some_iff.mp h
    obtain ⟨hch,hhandlers⟩ := MemQueue.Enqueue_spec hq
    exact .inr (.inl ⟨e,q,rfl,hch,hhandlers,rfl⟩)
  | receive i =>
    simp only [step] at h
    split at h
    · next e q hi hq =>
      obtain ⟨hch,hhandlers⟩ := MemQueue.receive_spec.mp hq
      exact .inr (.inr (.inl ⟨i,e,q,rfl,hi,hch,hhandlers,(Option.some.inj h).symm⟩))
    · exact absurd h (by simp)
  | lookUp i =>
    simp only [step] at h
    split at h
    · next e hi =>
      split at h
      · next hd hlookup => exact .inr (.inr (.inr (.inl ⟨i,e,hd,rfl,hi,hlookup,(Option.some.inj h).symm⟩)))
      · next hlookup => exact .inr (.inr (.inr (.inr (.inl ⟨i,e,rfl,hi,hlookup,(Option.some.inj h).symm⟩))))
    · exact absurd h (by simp)
  | finish i =>
    simp only [step] at h
    split at h
    · next hd e hi => exact .inr (.inr (.inr (.inr (.inr ⟨i,e,hd,rfl,hi,(Option.some.inj h).symm⟩))))
    · exact absurd h (by simp)

lemma length_step {ev : Event H} (h : s.step ev = some t) : t.loops.length = s.loops.length := by
  obtain ⟨kind,hd,-,rfl⟩ | ⟨e,q,-,-,-,rfl⟩ | ⟨i,e,q,-,-,-,-,rfl⟩ | ⟨i,e,hd,-,-,-,rfl⟩ | ⟨i,e,-,-,-,rfl⟩ |
    ⟨i,e,hd,-,-,rfl⟩ := step_cases h <;> simp

lemma inHand_receive {i : ℕ} (h : s.loops[i]? = some .selecting) (e : Envelope) :
    ((s.loops.set i (.holding e)).flatMap Loop.inHand).Perm (e :: s.inHand) := by
  obtain ⟨front,back,hl,hset⟩ := split_at h
  rw [hset,inHand,hl]
  simp only [List.flatMap_append,List.flatMap_cons,Loop.inHand,List.nil_append,List.singleton_append]
  exact List.perm_middle

/-- Jobs are received in the order they were accepted in, and one received is in hand or done with. -/
structure Orderly (s : System H) : Prop where
  fifo : s.received ++ s.queue.ch = s.accepted
  held : (s.finished ++ s.inHand).Perm s.received

lemma orderly_start (n : ℕ) : Orderly (start n : System H) where
  fifo := rfl
  held := by simp [start,finished,inHand,Loop.inHand]

/-- A job moves out of a loop's hand when the loop is done with it. -/
lemma held_done {i : ℕ} {e : Envelope} {l : Loop H} (o : Option H) (hi : s.loops[i]? = some l)
    (hl : l.inHand = [e]) (h : (s.finished ++ s.inHand).Perm s.received) :
    ((s.done ++ [(o,e)]).map Prod.snd ++ (s.loops.set i .selecting).flatMap Loop.inHand).Perm s.received := by
  have hout : s.inHand.Perm (e :: (s.loops.set i .selecting).flatMap Loop.inHand) := perm_release hi hl
  rw [List.map_append,List.append_assoc]
  exact (hout.symm.append_left s.finished).trans h

lemma Orderly.step {ev : Event H} (hs : s.Orderly) (h : s.step ev = some t) : t.Orderly := by
  obtain ⟨kind,hd,-,rfl⟩ | ⟨e,q,-,hch,-,rfl⟩ | ⟨i,e,q,-,hi,hch,-,rfl⟩ | ⟨i,e,hd,-,hi,-,rfl⟩ | ⟨i,e,-,hi,-,rfl⟩ |
    ⟨i,e,hd,-,hi,rfl⟩ := step_cases h
  · exact ⟨hs.fifo,hs.held⟩
  · refine ⟨?_,hs.held⟩
    change s.received ++ q.ch = s.accepted ++ [e]
    rw [hch,← hs.fifo,List.append_assoc]
  · refine ⟨?_,?_⟩
    · change s.received ++ [e] ++ q.ch = s.accepted
      rw [← hs.fifo,hch,List.append_assoc]
      rfl
    · refine ((inHand_receive hi e).append_left _).trans ?_
      refine List.perm_middle.trans ((hs.held.cons e).trans ?_)
      exact (List.perm_append_singleton e s.received).symm
  · refine ⟨hs.fifo,?_⟩
    have hsame : (s.loops.set i (.handling hd e)).flatMap Loop.inHand = s.inHand := flatMap_set_eq hi rfl
    change (s.finished ++ (s.loops.set i (.handling hd e)).flatMap Loop.inHand).Perm s.received
    rw [hsame]
    exact hs.held
  · exact ⟨hs.fifo,held_done none hi rfl hs.held⟩
  · exact ⟨hs.fifo,held_done (some hd) hi rfl hs.held⟩

/-- One loop alone finishes the jobs in the order it receives them in. -/
def InOrder (s : System H) : Prop := s.loops.length ≤ 1 → s.finished ++ s.inHand = s.received

/-- What a loop that is alone has in hand, before and after a step of it. -/
lemma inHand_alone {i : ℕ} {l : Loop H} (hlen : s.loops.length ≤ 1) (hi : s.loops[i]? = some l) :
    s.inHand = l.inHand ∧ ∀ y : Loop H, (s.loops.set i y).flatMap Loop.inHand = y.inHand := by
  obtain ⟨front,back,hl,hset⟩ := split_at hi
  rw [hl,List.length_append,List.length_cons] at hlen
  obtain rfl : front = [] := List.length_eq_zero_iff.mp (by omega)
  obtain rfl : back = [] := List.length_eq_zero_iff.mp (by omega)
  refine ⟨?_,fun y => ?_⟩
  · rw [inHand,hl]
    exact List.append_nil _
  · rw [hset]
    exact List.append_nil _

lemma InOrder.step {ev : Event H} (hs : s.InOrder) (h : s.step ev = some t) : t.InOrder := by
  obtain ⟨kind,hd,-,rfl⟩ | ⟨e,q,-,hch,-,rfl⟩ | ⟨i,e,q,-,hi,hch,-,rfl⟩ | ⟨i,e,hd,-,hi,-,rfl⟩ | ⟨i,e,-,hi,-,rfl⟩ |
    ⟨i,e,hd,-,hi,rfl⟩ := step_cases h
  · exact hs
  · exact hs
  all_goals
    intro hlen
    have hlen : s.loops.length ≤ 1 := by simpa using hlen
    obtain ⟨hbefore,hafter⟩ := inHand_alone hlen hi
    have hs := hs hlen
    rw [hbefore] at hs
    rw [inHand,hafter]
  · change s.finished ++ [e] = s.received ++ [e]
    rw [← hs]
    exact congrArg (· ++ [e]) (List.append_nil _).symm
  · exact hs
  · simpa [finished,Loop.inHand] using hs
  · simpa [finished,Loop.inHand] using hs

/-- The handlers registered by some events, with their kinds. -/
def registrations (es : List (Event H)) : List (Bytes × H) :=
  es.filterMap fun
    | .register kind h => some (kind,h)
    | _ => none

/-- The jobs enqueued by some events. -/
def enqueued (es : List (Event H)) : List Envelope :=
  es.filterMap fun
    | .enqueue e => some e
    | _ => none

/-- The jobs accepted are those enqueued, and a job is handled by a handler registered for its kind. -/
structure Attributed (past : List (Event H)) (s : System H) : Prop where
  accepted : s.accepted = enqueued past
  handlers : ∀ kind h, s.queue.handlers.lookup kind = some h → (kind,h) ∈ registrations past
  handling : ∀ h e, .handling h e ∈ s.loops → (e.kind,h) ∈ registrations past
  done : ∀ h e, (some h,e) ∈ s.done → (e.kind,h) ∈ registrations past

lemma Attributed.step {past : List (Event H)} {ev : Event H} (hs : s.Attributed past) (h : s.step ev = some t) :
    t.Attributed (past ++ [ev]) := by
  have hgrow : ∀ {p : Bytes × H}, p ∈ registrations past → p ∈ registrations (past ++ [ev]) := by
    intro p hp
    rw [registrations,List.filterMap_append]
    exact List.mem_append_left _ hp
  have hidle : ∀ {i : ℕ} {y : Loop H} (hd : H) (e : Envelope), .handling hd e ∈ s.loops.set i y →
      .handling hd e = y ∨ (e.kind,hd) ∈ registrations (past ++ [ev]) := by
    intro i y hd e hmem
    exact (List.mem_or_eq_of_mem_set hmem).symm.imp_right fun hmem => hgrow (hs.handling hd e hmem)
  obtain ⟨kind,hd,rfl,rfl⟩ | ⟨e,q,rfl,-,hq,rfl⟩ | ⟨i,e,q,rfl,hi,-,hq,rfl⟩ | ⟨i,e,hd,rfl,hi,hlookup,rfl⟩ |
    ⟨i,e,rfl,hi,-,rfl⟩ | ⟨i,e,hd,rfl,hi,rfl⟩ := step_cases h
  · refine ⟨by simp [enqueued,hs.accepted],?_,fun hd e he => hgrow (hs.handling hd e he),
      fun hd e he => hgrow (hs.done hd e he)⟩
    intro k hk hlookup
    obtain ⟨rfl,rfl⟩ | ⟨-,hlookup⟩ := GoMap.lookup_insert_cases hlookup
    · simp [registrations]
    · exact hgrow (hs.handlers k hk hlookup)
  · refine ⟨by simp [enqueued,hs.accepted],?_,fun hd e he => hgrow (hs.handling hd e he),
      fun hd e he => hgrow (hs.done hd e he)⟩
    change ∀ kind hd, q.handlers.lookup kind = some hd → _
    rw [hq]
    exact fun kind hd hlookup => hgrow (hs.handlers kind hd hlookup)
  · refine ⟨by simp [enqueued,hs.accepted],?_,?_,fun hd e he => hgrow (hs.done hd e he)⟩
    · change ∀ kind hd, q.handlers.lookup kind = some hd → _
      rw [hq]
      exact fun kind hd hlookup => hgrow (hs.handlers kind hd hlookup)
    · exact fun hd e he => (hidle hd e he).resolve_left (by simp)
  · refine ⟨by simp [enqueued,hs.accepted],fun kind hd hk => hgrow (hs.handlers kind hd hk),?_,
      fun hd e he => hgrow (hs.done hd e he)⟩
    intro hd' e' he
    obtain heq | hmem := hidle hd' e' he
    · obtain ⟨rfl,rfl⟩ := Loop.handling.inj heq
      exact hgrow (hs.handlers _ _ hlookup)
    · exact hmem
  · refine ⟨by simp [enqueued,hs.accepted],fun kind hd hk => hgrow (hs.handlers kind hd hk),
      fun hd e he => (hidle hd e he).resolve_left (by simp),?_⟩
    intro hd e' he
    exact hgrow (hs.done hd e' (by simpa using he))
  · refine ⟨by simp [enqueued,hs.accepted],fun kind hd hk => hgrow (hs.handlers kind hd hk),
      fun hd e he => (hidle hd e he).resolve_left (by simp),?_⟩
    intro hd' e' he
    obtain hmem | heq := List.mem_append.mp he
    · exact hgrow (hs.done hd' e' hmem)
    · obtain ⟨rfl,rfl⟩ : hd' = hd ∧ e' = e := by simpa using heq
      exact hgrow (hs.handling hd' e' (List.mem_of_getElem? hi))

/-- The loops accept nothing and register nothing. -/
lemma step_ofLoop {ev : Event H} (h : s.step ev = some t) (hev : ev.ofLoop = true) :
    t.accepted = s.accepted ∧ ∀ kind hd, ev ≠ .register kind hd := by
  obtain ⟨kind,hd,rfl,rfl⟩ | ⟨e,q,rfl,-,-,rfl⟩ | ⟨i,e,q,rfl,-,-,-,rfl⟩ | ⟨i,e,hd,rfl,-,-,rfl⟩ | ⟨i,e,rfl,-,-,rfl⟩ |
    ⟨i,e,hd,rfl,-,rfl⟩ := step_cases h
  · exact absurd hev (by simp [Event.ofLoop])
  · exact absurd hev (by simp [Event.ofLoop])
  all_goals exact ⟨rfl,by simp⟩

/-- As long as nothing is registered, every job goes to the handler of its kind. -/
structure Steady (hs : GoMap Bytes H) (s : System H) : Prop where
  handlers : s.queue.handlers = hs
  handling : ∀ h e, .handling h e ∈ s.loops → hs.lookup e.kind = some h
  done : ∀ o e, (o,e) ∈ s.done → hs.lookup e.kind = o

lemma Steady.step {hs : GoMap Bytes H} {ev : Event H} (hsteady : s.Steady hs) (h : s.step ev = some t)
    (hev : ∀ kind hd, ev ≠ .register kind hd) : t.Steady hs := by
  obtain ⟨kind,hd,rfl,-⟩ | ⟨e,q,-,-,hq,rfl⟩ | ⟨i,e,q,-,-,-,hq,rfl⟩ | ⟨i,e,hd,-,-,hlookup,rfl⟩ |
    ⟨i,e,-,-,hlookup,rfl⟩ | ⟨i,e,hd,-,hi,rfl⟩ := step_cases h
  · exact absurd rfl (hev kind hd)
  · exact ⟨hq.trans hsteady.handlers,hsteady.handling,hsteady.done⟩
  · refine ⟨hq.trans hsteady.handlers,fun hd e he => ?_,hsteady.done⟩
    exact hsteady.handling hd e ((List.mem_or_eq_of_mem_set he).resolve_right (by simp))
  · rw [hsteady.handlers] at hlookup
    refine ⟨hsteady.handlers,fun hd' e' he => ?_,hsteady.done⟩
    obtain hmem | heq := List.mem_or_eq_of_mem_set he
    · exact hsteady.handling hd' e' hmem
    · obtain ⟨rfl,rfl⟩ := Loop.handling.inj heq
      exact hlookup
  · rw [hsteady.handlers] at hlookup
    refine ⟨hsteady.handlers,fun hd e he => ?_,fun o e' he => ?_⟩
    · exact hsteady.handling hd e ((List.mem_or_eq_of_mem_set he).resolve_right (by simp))
    · obtain hmem | heq := List.mem_append.mp he
      · exact hsteady.done o e' hmem
      · obtain ⟨rfl,rfl⟩ : o = none ∧ e' = e := by simpa using heq
        exact hlookup
  · refine ⟨hsteady.handlers,fun hd e he => ?_,fun o e' he => ?_⟩
    · exact hsteady.handling hd e ((List.mem_or_eq_of_mem_set he).resolve_right (by simp))
    · obtain hmem | heq := List.mem_append.mp he
      · exact hsteady.done o e' hmem
      · obtain ⟨rfl,rfl⟩ : o = some hd ∧ e' = e := by simpa using heq
        exact hsteady.handling hd e' (List.mem_of_getElem? hi)

/-- When everything is registered before anything else happens, a job done with went to the handler of its kind, or
was dropped for want of one. -/
def HandledByKind (es : List (Event H)) (s : System H) : Prop :=
  ∀ regs rest, es = regs ++ rest → (∀ ev ∈ regs, ∃ kind hd, ev = .register kind hd) →
    (∀ ev ∈ rest, ∀ kind hd, ev ≠ .register kind hd) →
      ∀ o e, (o,e) ∈ s.done → (GoMap.ofEntries (registrations regs)).lookup e.kind = o

/-- The state after some registrations. -/
lemma run_registrations {regs : List (Event H)} (hregs : ∀ ev ∈ regs, ∃ kind hd, ev = .register kind hd)
    (h : run step s regs = some t) : t.loops = s.loops ∧ t.done = s.done ∧
      t.queue.handlers = (registrations regs).foldl (fun m e => m.insert e.1 e.2) s.queue.handlers := by
  induction regs generalizing s with
  | nil =>
    obtain rfl := Option.some.inj h
    exact ⟨rfl,rfl,rfl⟩
  | cons ev regs ih =>
    obtain ⟨kind,hd,rfl⟩ := hregs ev (by simp)
    exact ih (fun ev' hev => hregs ev' (List.mem_cons_of_mem _ hev)) h

lemma run_steady {hs : GoMap Bytes H} {es : List (Event H)} (h : run step s es = some t) (hsteady : s.Steady hs)
    (hes : ∀ ev ∈ es, ∀ kind hd, ev ≠ .register kind hd) : t.Steady hs := by
  refine run_history (I := fun past u => (∀ ev ∈ past, ∀ kind hd, ev ≠ .register kind hd) → u.Steady hs) h
    (fun _ => hsteady) (fun past u ev v hstep hu hpast => ?_) hes
  rw [List.forall_mem_append,List.forall_mem_singleton] at hpast
  exact (hu hpast.1).step hstep hpast.2

lemma run_handledByKind {n : ℕ} {es : List (Event H)} (h : run step (start n) es = some s) :
    s.HandledByKind es := by
  rintro regs rest rfl hregs hrest
  rw [run_append] at h
  obtain ⟨u,hu,hrun⟩ := Option.bind_eq_some_iff.mp h
  obtain ⟨hloops,hdone,hhandlers⟩ := run_registrations hregs hu
  have hsteady : u.Steady (.ofEntries (registrations regs)) := by
    refine ⟨hhandlers,?_,?_⟩
    · rw [hloops]
      simp [start]
    · rw [hdone]
      simp [start]
  exact (run_steady hrun hsteady hrest).done

lemma run_spec {n : ℕ} {es : List (Event H)} (h : run step (start n) es = some s) :
    s.Orderly ∧ s.InOrder ∧ s.Attributed es ∧ s.loops.length = n := by
  refine ⟨run_invariant h (orderly_start n) fun _ _ _ hstep hs => hs.step hstep,?_,?_,?_⟩
  · refine run_invariant h (fun _ => ?_) fun _ _ _ hstep hs => hs.step hstep
    simp [start,finished,inHand,Loop.inHand]
  · refine run_history h ⟨rfl,?_,?_,?_⟩ fun _ _ _ _ hstep hs => hs.step hstep
    · simp [start,MemQueue.NewMemory]
    · simp [start]
    · simp [start]
  · refine run_invariant (I := fun s => s.loops.length = n) h (by simp [start]) fun _ _ _ hstep hs => ?_
    rw [length_step hstep,hs]

/-- Whatever callers and loops do, in any order: the jobs accepted are those enqueued, they are received in that
order, one received is in the hand of one loop or done with once, and only by a handler registered for its kind, or by
none; a single loop is done with them in that order. A job is dropped just for want of a handler, when the handlers are
registered first. -/
theorem run_accounts {n : ℕ} {es : List (Event H)} (h : run step (start n) es = some s) :
    s.received ++ s.queue.ch = enqueued es ∧ (s.finished ++ s.inHand).Perm s.received ∧
      (n ≤ 1 → s.finished ++ s.inHand = s.received) ∧
      (∀ hd e, (some hd,e) ∈ s.done → (e.kind,hd) ∈ registrations es) ∧ s.HandledByKind es := by
  obtain ⟨horderly,hinOrder,hattributed,hlength⟩ := run_spec h
  exact ⟨hattributed.accepted ▸ horderly.fifo,horderly.held,fun hn => hinOrder (hlength.trans_le hn),hattributed.done,
    run_handledByKind h⟩

/-- One job for one handler. -/
def pingEvents : List (Event ℕ) :=
  [.register (lit "ping") 7,.enqueue ⟨lit "ping",lit "1"⟩,.enqueue ⟨lit "pong",lit "2"⟩,.receive 0,.lookUp 0]

theorem ping_accounts : ∃ s, run step (start 1) pingEvents = some s ∧
    s.received ++ s.queue.ch = enqueued pingEvents ∧ (s.finished ++ s.inHand).Perm s.received ∧
      (1 ≤ 1 → s.finished ++ s.inHand = s.received) ∧
      (∀ hd e, (some hd,e) ∈ s.done → (e.kind,hd) ∈ registrations pingEvents) ∧ s.HandledByKind pingEvents := by
  obtain ⟨s,hs⟩ : ∃ s, run step (start 1) pingEvents = some s := ⟨_,rfl⟩
  exact ⟨s,hs,run_accounts hs⟩

/-- The steps the loops still have to take. -/
def remaining (s : System H) : ℕ := 3*s.queue.ch.length + (s.loops.map Loop.steps).sum

lemma sum_set {i : ℕ} {l : Loop H} (hi : s.loops[i]? = some l) (y : Loop H) :
    ((s.loops.set i y).map Loop.steps).sum + l.steps = (s.loops.map Loop.steps).sum + y.steps := by
  obtain ⟨front,back,hl,hset⟩ := split_at hi
  rw [hset,hl]
  simp only [List.map_append,List.map_cons,List.sum_append,List.sum_cons]
  omega

/-- As long as there are jobs in the buffer or in hand, one of the loops can go on. -/
lemma advance (hloops : s.loops ≠ []) (h : s.queue.ch ≠ [] ∨ s.inHand ≠ []) :
    ∃ ev t, s.step ev = some t ∧ ev.ofLoop = true ∧ t.remaining < s.remaining ∧ t.accepted = s.accepted := by
  by_cases hbusy : ∃ l ∈ s.loops, l ≠ .selecting
  · obtain ⟨l,hl,hne⟩ := hbusy
    obtain ⟨i,hi⟩ := List.mem_iff_getElem?.mp hl
    cases l with
    | selecting => exact absurd rfl hne
    | holding e =>
      cases hlookup : s.queue.handlers.lookup e.kind with
      | some hd =>
        refine ⟨.lookUp i,{ s with loops := s.loops.set i (.handling hd e) },by simp [step,hi,hlookup],rfl,?_,rfl⟩
        have hsum := sum_set hi (.handling hd e)
        simp only [remaining,Loop.steps] at hsum ⊢
        omega
      | none =>
        refine ⟨.lookUp i,{ s with loops := s.loops.set i .selecting, done := s.done ++ [(none,e)] },
          by simp [step,hi,hlookup],rfl,?_,rfl⟩
        have hsum := sum_set hi .selecting
        simp only [remaining,Loop.steps] at hsum ⊢
        omega
    | handling hd e =>
      refine ⟨.finish i,{ s with loops := s.loops.set i .selecting, done := s.done ++ [(some hd,e)] },
        by simp [step,hi],rfl,?_,rfl⟩
      have hsum := sum_set hi .selecting
      simp only [remaining,Loop.steps] at hsum ⊢
      omega
  · have hidle : ∀ l ∈ s.loops, l = .selecting := fun l hl => by_contra fun hne => hbusy ⟨l,hl,hne⟩
    have hch : s.queue.ch ≠ [] := by
      refine h.resolve_right fun hhand => hhand ?_
      refine List.flatMap_eq_nil_iff.mpr fun l hl => ?_
      rw [hidle l hl]
      rfl
    obtain ⟨l,ls,hl⟩ := List.exists_cons_of_ne_nil hloops
    obtain ⟨e,es,he⟩ := List.exists_cons_of_ne_nil hch
    have hzero : s.loops[0]? = some .selecting := by
      rw [hl,List.getElem?_cons_zero,hidle l (by simp [hl])]
    have hroom : es.length ≤ capacity := by
      have := s.queue.room
      rw [he,List.length_cons] at this
      omega
    have hreceive : s.queue.receive = some (e,⟨s.queue.handlers,es,hroom⟩) := MemQueue.receive_spec.mpr ⟨he,rfl⟩
    refine ⟨.receive 0,{ s with
      queue := ⟨s.queue.handlers,es,hroom⟩
      loops := s.loops.set 0 (.holding e)
      received := s.received ++ [e] },by simp [step,hzero,hreceive],rfl,?_,rfl⟩
    have hsum := sum_set hzero (.holding e)
    simp only [remaining,Loop.steps,he,List.length_cons] at hsum ⊢
    omega

lemma exists_drained (hloops : s.loops ≠ []) : ∃ fs t, run step s fs = some t ∧ (∀ ev ∈ fs, ev.ofLoop = true) ∧
    t.queue.ch = [] ∧ t.inHand = [] ∧ t.accepted = s.accepted := by
  induction hn : s.remaining using Nat.strong_induction_on generalizing s with | _ n ih =>
  by_cases h : s.queue.ch ≠ [] ∨ s.inHand ≠ []
  · obtain ⟨ev,u,hstep,hev,hless,hacc⟩ := advance hloops h
    have hu : u.loops ≠ [] := by
      rw [ne_eq,← List.length_eq_zero_iff,length_step hstep,List.length_eq_zero_iff]
      exact hloops
    obtain ⟨fs,t,hrun,hfs,hch,hhand,hacc'⟩ := ih u.remaining (hn ▸ hless) hu rfl
    refine ⟨ev :: fs,t,?_,List.forall_mem_cons.mpr ⟨hev,hfs⟩,hch,hhand,hacc'.trans hacc⟩
    rw [run_cons,hstep]
    exact hrun
  · rw [not_or,not_not,not_not] at h
    exact ⟨[],s,rfl,by simp,h.1,h.2,rfl⟩

/-- Nothing gets stuck: from any state that can be reached, the loops by themselves can be done with every job that
was accepted, handled or dropped for want of a handler. -/
theorem run_drains {n : ℕ} (hn : 0 < n) {es : List (Event H)} (h : run step (start n) es = some s) :
    ∃ fs t, run step s fs = some t ∧ (∀ ev ∈ fs, ev.ofLoop = true) ∧ t.queue.ch = [] ∧
      t.finished.Perm (enqueued es) ∧ t.HandledByKind (es ++ fs) := by
  obtain ⟨horderly,-,hattributed,hlength⟩ := run_spec h
  have hloops : s.loops ≠ [] := fun hnil => by simp [hnil] at hlength; omega
  obtain ⟨fs,t,hrun,hfs,hch,hhand,hacc⟩ := exists_drained hloops
  have ht : t.Orderly := run_invariant hrun horderly fun _ _ _ hstep hs => hs.step hstep
  have hall : run step (start n) (es ++ fs) = some t := by
    rw [run_append,h]
    exact hrun
  refine ⟨fs,t,hrun,hfs,hch,?_,run_handledByKind hall⟩
  have hheld := ht.held
  have hfifo := ht.fifo
  rw [hhand,List.append_nil] at hheld
  rw [hch,List.append_nil,hacc,hattributed.accepted] at hfifo
  rwa [← hfifo]

theorem ping_drains : ∃ s, run step (start 1) pingEvents = some s ∧
    ∃ fs t, run step s fs = some t ∧ (∀ ev ∈ fs, ev.ofLoop = true) ∧ t.queue.ch = [] ∧
      t.finished.Perm (enqueued pingEvents) ∧ t.HandledByKind (pingEvents ++ fs) := by
  obtain ⟨s,hs⟩ : ∃ s, run step (start 1) pingEvents = some s := ⟨_,rfl⟩
  exact ⟨s,hs,run_drains Nat.one_pos hs⟩

end System

end Jobs
