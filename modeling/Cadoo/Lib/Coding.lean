import Cadoo.Lib.Bytes

/-! Texts written letter by letter: where a letter of the text comes from, and when the text can be read back. -/
namespace Coding
variable {α β : Type} {code : α → List β}

/-- A letter of the text is in the word of some letter, between the words before and after it. -/
lemma exists_word {s : List α} {u v : List β} {c : β} (h : s.flatMap code = u ++ c :: v) :
    ∃ s₁ a s₂ p q, s = s₁ ++ a :: s₂ ∧ code a = p ++ c :: q ∧ u = s₁.flatMap code ++ p ∧
      v = q ++ s₂.flatMap code := by
  induction s generalizing u with
  | nil => simp at h
  | cons a s ih =>
    rw [List.flatMap_cons] at h
    rcases List.append_eq_append_iff.mp h with ⟨w,rfl,hw⟩ | ⟨w,hw,hv⟩
    · obtain ⟨s₁,b,s₂,p,q,rfl,hb,rfl,rfl⟩ := ih hw
      exact ⟨a :: s₁,b,s₂,p,q,rfl,hb,by rw [List.flatMap_cons,List.append_assoc],rfl⟩
    · cases w with
      | nil =>
        obtain ⟨s₁,b,s₂,p,q,rfl,hb,hp,rfl⟩ := ih (u := []) hv.symm
        obtain ⟨hs,rfl⟩ := List.append_eq_nil_iff.mp hp.symm
        refine ⟨a :: s₁,b,s₂,[],q,rfl,hb,?_,rfl⟩
        rw [List.flatMap_cons,hs,List.append_nil,List.append_nil,hw,List.append_nil]
      | cons d w =>
        obtain ⟨rfl,rfl⟩ := List.cons_eq_cons.mp hv
        exact ⟨[],a,s,u,w,rfl,hw,rfl,rfl⟩

/-- A text is read back letter by letter when the first letter can always be told. -/
theorem flatMap_inj {ok : α → Prop} (first : List β → α) (hfirst : ∀ a t, ok a → first (code a ++ t) = a)
    (hne : ∀ a, ok a → code a ≠ []) {s t : List α} (hs : ∀ a ∈ s, ok a) (ht : ∀ a ∈ t, ok a)
    (h : s.flatMap code = t.flatMap code) : s = t := by
  induction s generalizing t with
  | nil =>
    cases t with
    | nil => rfl
    | cons b t =>
      rw [List.flatMap_cons] at h
      exact absurd (List.append_eq_nil_iff.mp h.symm).1 (hne b (ht b List.mem_cons_self))
  | cons a s ih =>
    obtain ⟨ha,hs⟩ := List.forall_mem_cons.mp hs
    cases t with
    | nil =>
      rw [List.flatMap_cons] at h
      exact absurd (List.append_eq_nil_iff.mp h).1 (hne a ha)
    | cons b t =>
      obtain ⟨hb,htail⟩ := List.forall_mem_cons.mp ht
      rw [List.flatMap_cons,List.flatMap_cons] at h
      have hab : a = b := by rw [← hfirst a (s.flatMap code) ha,h,hfirst b (t.flatMap code) hb]
      subst hab
      have hrest : s.flatMap code = t.flatMap code := List.append_cancel_left h
      rw [ih hs htail hrest]

end Coding
