import Mathlib.Data.List.Basic
import Mathlib.Tactic.Lemma

/-! Runs of a machine whose events may be refused: what every step keeps holds all along a run. The parts
of a system are kept in a list, and a step changes one of them. -/
namespace Steps

section Run
variable {S E : Type*} (step : S → E → Option S)

/-- The state after some events, if none of them is refused. -/
def run (s : S) (es : List E) : Option S := es.foldlM step s

@[simp] lemma run_nil (s : S) : run step s [] = some s := rfl

@[simp] lemma run_cons (s : S) (e : E) (es : List E) :
    run step s (e :: es) = (step s e).bind fun t => run step t es := rfl

lemma run_append (s : S) (es fs : List E) :
    run step s (es ++ fs) = (run step s es).bind fun t => run step t fs := by
  induction es generalizing s with
  | nil => rfl
  | cons e es ih =>
    rw [List.cons_append,run_cons,run_cons,Option.bind_assoc]
    congr 1
    funext t
    exact ih t

variable {step} {s t : S} {es : List E}

/-- A property of the events so far and the state they lead to. -/
theorem run_history {I : List E → S → Prop} (h : run step s es = some t) (hs : I [] s)
    (hstep : ∀ past s e t, step s e = some t → I past s → I (past ++ [e]) t) : I es t := by
  suffices hall : ∀ past s, I past s → run step s es = some t → I (past ++ es) t from hall [] s hs h
  clear hs h
  induction es with
  | nil =>
    intro past s hs h
    rw [List.append_nil]
    exact Option.some.inj h ▸ hs
  | cons e es ih =>
    intro past s hs h
    obtain ⟨u,hu,h⟩ := Option.bind_eq_some_iff.mp h
    rw [List.append_cons]
    exact ih (past ++ [e]) u (hstep past s e u hu hs) h

theorem run_invariant {I : S → Prop} (h : run step s es = some t) (hs : I s)
    (hstep : ∀ s e t, step s e = some t → I s → I t) : I t :=
  run_history (I := fun _ => I) h hs fun _ => hstep

variable (step) in
/-- Every event of a run meets a condition in the state it comes to. -/
def Along (C : S → E → Prop) (s : S) : List E → Prop
  | [] => True
  | e :: es => C s e ∧ ∀ t ∈ step s e, Along C t es

instance Along.decidable {C : S → E → Prop} [∀ s e, Decidable (C s e)] : ∀ s es, Decidable (Along step C s es)
  | _,[] => .isTrue trivial
  | s,e :: es =>
    have (t : S) : Decidable (Along step C t es) := Along.decidable t es
    inferInstanceAs (Decidable (C s e ∧ ∀ t ∈ step s e, Along step C t es))

/-- What is kept by the events that meet the condition. -/
theorem run_along {C : S → E → Prop} {I : S → Prop} (h : run step s es = some t) (hc : Along step C s es) (hs : I s)
    (hstep : ∀ s e t, C s e → step s e = some t → I s → I t) : I t := by
  induction es generalizing s with
  | nil => exact Option.some.inj h ▸ hs
  | cons e es ih =>
    obtain ⟨u,hu,h⟩ := Option.bind_eq_some_iff.mp h
    exact ih h (hc.2 u hu) (hstep s e u hc.1 hu hs)

end Run

section Parts
variable {α β : Type*} {l : List α} {i : ℕ} {x : α}

/-- One part of a list, with what stands before and behind it. -/
lemma split_at (h : l[i]? = some x) : ∃ front back, l = front ++ x :: back ∧
    ∀ y, l.set i y = front ++ y :: back := by
  induction l generalizing i with
  | nil => simp at h
  | cons a l ih =>
    cases i with
    | zero => exact ⟨[],l,by simpa using h,fun y => rfl⟩
    | succ i =>
      obtain ⟨front,back,hl,hset⟩ := ih (by simpa using h)
      exact ⟨a :: front,back,by rw [hl,List.cons_append],fun y => by rw [List.set_cons_succ,hset,List.cons_append]⟩

/-- What the parts hold together, when one of them gives up an item. -/
lemma perm_release {f : α → List β} {y : α} {b : β} (h : l[i]? = some x) (hx : f x = b :: f y) :
    (l.flatMap f).Perm (b :: (l.set i y).flatMap f) := by
  obtain ⟨front,back,hl,hset⟩ := split_at h
  rw [hl,← hl,hset]
  simp only [hl,List.flatMap_append,List.flatMap_cons,hx,List.cons_append]
  exact List.perm_middle

lemma flatMap_set_eq {f : α → List β} {y : α} (h : l[i]? = some x) (hx : f y = f x) :
    (l.set i y).flatMap f = l.flatMap f := by
  obtain ⟨front,back,hl,hset⟩ := split_at h
  rw [hset,hl]
  simp only [List.flatMap_append,List.flatMap_cons,hx]

/-- What some of the parts give, when one of them changes. -/
lemma filterMap_set_perm {f : α → Option β} (h : l[i]? = some x) : ∃ rest,
    (l.filterMap f).Perm ((f x).toList ++ rest) ∧ ∀ y, ((l.set i y).filterMap f).Perm ((f y).toList ++ rest) := by
  obtain ⟨front,back,hl,hset⟩ := split_at h
  have hperm (y : α) : ((front ++ y :: back).filterMap f).Perm
      ((f y).toList ++ (front.filterMap f ++ back.filterMap f)) := by
    rw [List.filterMap_append,List.filterMap_cons]
    cases f y with
    | none => exact .refl _
    | some b => exact List.perm_middle
  refine ⟨front.filterMap f ++ back.filterMap f,hl ▸ hperm x,fun y => ?_⟩
  rw [hset]
  exact hperm y

end Parts

end Steps
