import Mathlib.Data.List.Basic

/-! Runs of a deterministic machine that takes events one by one: invariants over whole runs, and two
machines kept side by side as long as every step meets a condition. -/
namespace Machine

variable {S T E : Type*} (step : S → E → S)

def run (s : S) (events : List E) : S := events.foldl step s

@[simp] lemma run_nil (s : S) : run step s [] = s := rfl

@[simp] lemma run_cons (s : S) (e : E) (es : List E) :
    run step s (e :: es) = run step (step s e) es := rfl

lemma run_append (s : S) (es fs : List E) : run step s (es ++ fs) = run step (run step s es) fs :=
  List.foldl_append

/-- Every step of a run is taken from a state that meets the condition. -/
def Guarded (G : S → E → Prop) : S → List E → Prop
  | _, [] => True
  | s, e :: es => G s e ∧ Guarded G (step s e) es

/-- What every step of a run preserves holds after it. -/
theorem run_invariant {I : S → Prop} {es : List E} (hstep : ∀ s, ∀ e ∈ es, I s → I (step s e)) {s : S}
    (h : I s) : I (run step s es) := by
  induction es generalizing s with
  | nil => exact h
  | cons e es ih =>
    exact ih (fun s f hf => hstep s f (List.mem_cons_of_mem e hf)) (hstep s e (by simp) h)

/-- When guarded steps keep two machines together, together means alike, and an unguarded step tells
them apart, then the machines are alike all along a run exactly when the run is guarded. -/
theorem guarded_iff_alike {step' : T → E → T} {G : S → E → Prop} {R Q : S → T → Prop} {es : List E}
    (hstep : ∀ s t, ∀ e ∈ es, R s t → G s e → R (step s e) (step' t e))
    (halike : ∀ s t, R s t → Q s t)
    (hapart : ∀ s t, ∀ e ∈ es, R s t → ¬ G s e → ¬ Q (step s e) (step' t e)) {s : S} {t : T}
    (h : R s t) :
    (∀ done, done <+: es → Q (run step s done) (run step' t done)) ↔ Guarded step G s es := by
  induction es generalizing s t with
  | nil =>
    refine ⟨fun _ => trivial,fun _ done hd => ?_⟩
    rw [List.prefix_nil.mp hd]
    exact halike s t h
  | cons e es ih =>
    have ih := fun hR => ih (fun s t f hf => hstep s t f (List.mem_cons_of_mem e hf))
      (fun s t f hf => hapart s t f (List.mem_cons_of_mem e hf)) (s := step s e) (t := step' t e) hR
    constructor
    · intro hq
      have hg : G s e := by
        by_contra hg
        exact hapart s t e (by simp) h hg (hq [e] (List.prefix_append [e] es))
      exact ⟨hg,(ih (hstep s t e (by simp) h hg)).mp fun done hd =>
        hq (e :: done) (List.cons_prefix_cons.mpr ⟨rfl,hd⟩)⟩
    · rintro ⟨hg,hgs⟩ done hd
      cases done with
      | nil => exact halike s t h
      | cons f done =>
        obtain ⟨rfl,hdone⟩ := List.cons_prefix_cons.mp hd
        exact (ih (hstep s t f (by simp) h hg)).mpr hgs done hdone

end Machine
