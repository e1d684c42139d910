import Cadoo.Lib.Bytes

/-! Occurrences of a word in a text, and how they add up when texts are put together. A word whose first
letter stands nowhere else in it cannot overlap itself; a delimited word, whose last letter does so too,
cannot overlap a foreign neighbour either. A text in which two letters never meet does not lie across a
place where they do. -/

/-- The number of places at which a non-empty word occurs. -/
def occurrences {α : Type} [DecidableEq α] (w : List α) : List α → ℕ
  | [] => 0
  | a :: s => (if w <+: a :: s then 1 else 0) + occurrences w s

/-- A word `a …` with `a` only in front. -/
structure Opens {α : Type} (w : List α) (a : α) : Prop where
  shape : ∃ m, w = a :: m
  opening : ∀ w₁ w₂, w = w₁ ++ a :: w₂ → w₁ = []

/-- A word `a … z` with `a` only in front and `z` only at the end. -/
structure Delimited {α : Type} (w : List α) (a z : α) : Prop where
  shape : ∃ m, w = a :: (m ++ [z])
  opening : ∀ w₁ w₂, w = w₁ ++ a :: w₂ → w₁ = []
  closing : ∀ w₁ w₂, w = w₁ ++ z :: w₂ → w₂ = []

section Seams
variable {α : Type} {b x y : List α} {c d : α}

/-- A text does not lie across a seam whose two letters never meet in it. -/
theorem infix_append_of_seam (hx : x.getLast? = some c) (hy : y.head? = some d) (h : ¬ [c,d] <:+: b) :
    b <:+: x ++ y ↔ b <:+: x ∨ b <:+: y := by
  rw [List.infix_append_iff_ne_nil]
  refine ⟨?_,fun hxy => hxy.imp_right .inl⟩
  rintro (hb | hb | ⟨l,r,hl,hr,rfl,hlx,hry⟩)
  · exact .inl hb
  · exact .inr hb
  · refine absurd ?_ h
    have hlast : l.getLast? = some c := by
      obtain ⟨u,rfl⟩ := hlx
      rw [List.getLast?_append_of_ne_nil _ hl] at hx
      exact hx
    have hhead : r.head? = some d := by
      obtain ⟨v,rfl⟩ := hry
      rw [List.head?_append_of_ne_nil _ hr] at hy
      exact hy
    obtain ⟨u,rfl⟩ := List.getLast?_eq_some_iff.mp hlast
    obtain ⟨v,rfl⟩ := List.head?_eq_some_iff.mp hhead
    exact ⟨u,v,by simp⟩

lemma infix_cons_of_head (h : b.head? ≠ some c) : b <:+: c :: y ↔ b <:+: y := by
  rw [List.infix_cons_iff,List.prefix_cons_iff]
  refine ⟨?_,.inr⟩
  rintro ((rfl | ⟨t,rfl,-⟩) | hb)
  · exact List.nil_infix
  · exact absurd rfl h
  · exact hb

lemma infix_concat_of_last (h : b.getLast? ≠ some c) : b <:+: x ++ [c] ↔ b <:+: x := by
  rw [List.infix_concat_iff,List.suffix_concat_iff]
  refine ⟨?_,.inr⟩
  rintro ((rfl | ⟨t,rfl,-⟩) | hb)
  · exact List.nil_infix
  · exact absurd (by simp) h
  · exact hb

end Seams

section Count
variable {α : Type} [DecidableEq α] {w : List α}

lemma occurrences_eq_zero {s : List α} (hw : w ≠ []) : occurrences w s = 0 ↔ ¬ w <:+: s := by
  induction s with
  | nil => simp [occurrences,hw]
  | cons a s ih =>
    rw [occurrences,List.infix_cons_iff,not_or,← ih]
    split
    · next h => simp [h]
    · next h => simp [h]

/-- Where no occurrence lies across the seam, occurrences add up. -/
theorem occurrences_append {x y : List α} (h : ∀ w₁ w₂, w = w₁ ++ w₂ → w₁ ≠ [] → w₂ ≠ [] →
    w₁ <:+ x → ¬ w₂ <+: y) : occurrences w (x ++ y) = occurrences w x + occurrences w y := by
  induction x with
  | nil => simp [occurrences]
  | cons a x ih =>
    have ih := ih fun w₁ w₂ hw h₁ h₂ hs => h w₁ w₂ hw h₁ h₂ (hs.trans (List.suffix_cons a x))
    have hfront : w <+: (a :: x) ++ y ↔ w <+: a :: x := by
      refine ⟨fun hp => ?_,fun hp => hp.trans (List.prefix_append _ _)⟩
      rcases List.prefix_or_prefix_of_prefix hp (List.prefix_append (a :: x) y) with hp' | ⟨w₂,hw⟩
      · exact hp'
      · by_cases hw₂ : w₂ = []
        · rw [← hw,hw₂,List.append_nil]
        · rw [← hw,List.prefix_append_right_inj] at hp
          exact absurd hp (h (a :: x) w₂ hw.symm (by simp) hw₂ List.suffix_rfl)
    rw [List.cons_append,occurrences,occurrences,ih,Nat.add_assoc]
    congr 1
    exact if_congr hfront rfl rfl

lemma le_occurrences_append (x y : List α) :
    occurrences w x + occurrences w y ≤ occurrences w (x ++ y) := by
  induction x with
  | nil => simp [occurrences]
  | cons a x ih =>
    rw [List.cons_append,occurrences,occurrences]
    by_cases h : w <+: a :: x
    · have h' : w <+: a :: (x ++ y) := h.trans (List.prefix_append (a :: x) y)
      rw [if_pos h,if_pos h']
      omega
    · rw [if_neg h]
      omega

/-- A letter that the word does not have keeps the texts around it apart. -/
lemma occurrences_foreign (hw : w ≠ []) {c : α} (hc : c ∉ w) (x y : List α) :
    occurrences w (x ++ c :: y) = occurrences w x + occurrences w y := by
  have hseam : occurrences w (x ++ c :: y) = occurrences w x + occurrences w (c :: y) := by
    apply occurrences_append
    rintro w₁ w₂ rfl h₁ h₂ - ⟨t,ht⟩
    obtain ⟨b,w₂,rfl⟩ := List.exists_cons_of_ne_nil h₂
    obtain ⟨rfl,-⟩ := List.cons_eq_cons.mp ht
    exact hc (by simp)
  rw [hseam,occurrences,if_neg,Nat.zero_add]
  intro hp
  obtain ⟨b,m,hm⟩ := List.exists_cons_of_ne_nil hw
  rw [hm,List.cons_prefix_cons] at hp
  exact hc (by simp [hm,hp.1])

end Count

namespace Opens

lemma of_notMem {α : Type} {m : List α} {a : α} (ha : a ∉ m) : Opens (a :: m) a where
  shape := ⟨m,rfl⟩
  opening w₁ w₂ hw := by
    cases w₁ with
    | nil => rfl
    | cons c w₁ =>
      obtain ⟨-,hm⟩ := List.cons_eq_cons.mp hw
      exact absurd (by simp [hm]) ha

section Shape
variable {α : Type} {w : List α} {a : α} (h : Opens w a)
include h

lemma ne_nil : w ≠ [] := by
  obtain ⟨m,rfl⟩ := h.shape
  exact List.cons_ne_nil a m

lemma head?_eq : w.head? = some a := by
  obtain ⟨m,rfl⟩ := h.shape
  rfl

/-- No part of the word but the whole opens like it. -/
lemma head?_back {w₁ w₂ : List α} (hw : w = w₁ ++ w₂) (h₁ : w₁ ≠ []) : w₂.head? ≠ some a := by
  intro hhead
  obtain ⟨t,rfl⟩ := List.head?_eq_some_iff.mp hhead
  exact h₁ (h.opening w₁ t hw)

lemma opening_mem {w₁ w₂ : List α} (hw : w = w₁ ++ w₂) (h₁ : w₁ ≠ []) : a ∈ w₁ := by
  have hhead := h.head?_eq
  rw [hw,List.head?_append_of_ne_nil _ h₁] at hhead
  exact List.mem_of_head? hhead

end Shape

variable {α : Type} [DecidableEq α] {w : List α} {a : α} (h : Opens w a)
include h

/-- A text that opens like the word is kept apart from what stands before it. -/
lemma occurrences_open (x : List α) {y : List α} (hy : y.head? = some a) :
    occurrences w (x ++ y) = occurrences w x + occurrences w y := by
  apply occurrences_append
  intro w₁ w₂ hw h₁ h₂ _ hp
  apply h.head?_back hw h₁
  obtain ⟨t,rfl⟩ := hp
  rwa [List.head?_append_of_ne_nil _ h₂] at hy

/-- What has no opening letter adds nothing in front of a text. -/
lemma occurrences_before {x : List α} (hx : a ∉ x) (y : List α) :
    occurrences w (x ++ y) = occurrences w y := by
  have hnil : occurrences w x = 0 := by
    rw [occurrences_eq_zero h.ne_nil]
    exact fun hin => hx (hin.subset (List.mem_of_head? h.head?_eq))
  rw [occurrences_append,hnil,Nat.zero_add]
  exact fun w₁ w₂ hw h₁ h₂ hs _ => hx (hs.subset (h.opening_mem hw h₁))

/-- The word in front of a text: one occurrence more. -/
lemma occurrences_front (y : List α) : occurrences w (w ++ y) = 1 + occurrences w y := by
  obtain ⟨m,hm⟩ := h.shape
  have ha : a ∉ m := by
    intro ha
    obtain ⟨x,z,hxz⟩ := List.append_of_mem ha
    exact absurd (h.opening (a :: x) z (by rw [hm,hxz]; rfl)) (List.cons_ne_nil a x)
  have hrest := h.occurrences_before ha y
  rw [hm] at hrest ⊢
  have hp : a :: m <+: a :: (m ++ y) := List.prefix_append (a :: m) y
  rw [List.cons_append,occurrences,if_pos hp,hrest]

/-- The word between two texts: one occurrence more. -/
theorem occurrences_around (x y : List α) :
    occurrences w (x ++ w ++ y) = occurrences w x + 1 + occurrences w y := by
  have hhead : (w ++ y).head? = some a := by
    rw [List.head?_append_of_ne_nil _ h.ne_nil,h.head?_eq]
  rw [List.append_assoc,h.occurrences_open x hhead,h.occurrences_front,Nat.add_assoc]

end Opens

namespace Delimited

lemma of_notMem {α : Type} {m : List α} {a z : α} (ha : a ∉ m ++ [z]) (hz : z ∉ a :: m) :
    Delimited (a :: (m ++ [z])) a z where
  shape := ⟨m,rfl⟩
  opening w₁ w₂ hw := by
    cases w₁ with
    | nil => rfl
    | cons c w₁ =>
      obtain ⟨-,hm⟩ := List.cons_eq_cons.mp hw
      exact absurd (by simp [hm]) ha
  closing w₁ w₂ hw := by
    rcases List.eq_nil_or_concat w₂ with rfl | ⟨w₂,y,rfl⟩
    · rfl
    · have hm : (a :: m) ++ [z] = (w₁ ++ z :: w₂) ++ [y] := by simpa using hw
      obtain ⟨hm,-⟩ := List.append_inj' hm rfl
      exact absurd (by simp [hm]) hz

section Shape
variable {α : Type} {w : List α} {a z : α} (h : Delimited w a z)
include h

lemma opens : Opens w a where
  shape := by
    obtain ⟨m,hm⟩ := h.shape
    exact ⟨m ++ [z],hm⟩
  opening := h.opening

lemma getLast?_eq : w.getLast? = some z := by
  obtain ⟨m,rfl⟩ := h.shape
  exact List.getLast?_concat (l := a :: m)

/-- No part of the word but the whole closes like it. -/
lemma getLast?_front {w₁ w₂ : List α} (hw : w = w₁ ++ w₂) (h₂ : w₂ ≠ []) :
    w₁.getLast? ≠ some z := by
  intro hlast
  obtain ⟨t,rfl⟩ := List.getLast?_eq_some_iff.mp hlast
  exact h₂ (h.closing t w₂ (by rw [hw,List.append_assoc]; rfl))

/-- Of two words that open alike, the one further left lies wholly in front of the other. -/
lemma in_front {w' : List α} {z' : α} (h' : Delimited w' a z') {u v x y : List α}
    (heq : u ++ w ++ v = x ++ w' ++ y) (hlt : u.length < x.length) : ∃ m, x = u ++ w ++ m := by
  rw [List.append_assoc,List.append_assoc] at heq
  obtain ⟨g,rfl⟩ : u <+: x := by
    apply List.prefix_of_prefix_length_le (List.prefix_append u (w ++ v)) _ (Nat.le_of_lt hlt)
    rw [heq]
    exact List.prefix_append _ _
  rw [List.append_assoc,List.append_cancel_left_eq] at heq
  have hg : g ≠ [] := by
    rintro rfl
    simp at hlt
  rcases List.append_eq_append_iff.mp heq with ⟨m,rfl,-⟩ | ⟨w₂,hw,hw₂⟩
  · exact ⟨m,(List.append_assoc u w m).symm⟩
  · by_cases hnil : w₂ = []
    · refine ⟨[],?_⟩
      rw [hw,hnil]
      simp
    · have hhead := congrArg List.head? hw₂
      rw [List.head?_append_of_ne_nil _ h'.opens.ne_nil,h'.opens.head?_eq,
        List.head?_append_of_ne_nil _ hnil] at hhead
      exact absurd hhead.symm (h.opens.head?_back hw hg)

lemma closing_mem {w₁ w₂ : List α} (hw : w = w₁ ++ w₂) (h₂ : w₂ ≠ []) : z ∈ w₂ := by
  have hlast := h.getLast?_eq
  rw [hw,List.getLast?_append_of_ne_nil _ h₂] at hlast
  exact List.mem_of_getLast? hlast

end Shape

variable {α : Type} [DecidableEq α] {w : List α} {a z : α} (h : Delimited w a z)
include h

/-- A text that closes like the word is kept apart from what follows it. -/
lemma occurrences_close {x : List α} (hx : x.getLast? = some z) (y : List α) :
    occurrences w (x ++ y) = occurrences w x + occurrences w y := by
  apply occurrences_append
  intro w₁ w₂ hw h₁ h₂ hs _
  apply h.getLast?_front hw h₂
  obtain ⟨t,rfl⟩ := hs
  rwa [List.getLast?_append_of_ne_nil _ h₁] at hx

/-- What has no closing letter adds nothing behind a text. -/
lemma occurrences_behind (x : List α) {y : List α} (hy : z ∉ y) :
    occurrences w (x ++ y) = occurrences w x := by
  have hnil : occurrences w y = 0 := by
    rw [occurrences_eq_zero h.opens.ne_nil]
    exact fun hin => hy (hin.subset (h.closing_mem (List.nil_append w).symm h.opens.ne_nil))
  rw [occurrences_append,hnil,Nat.add_zero]
  exact fun w₁ w₂ hw h₁ h₂ _ hp => hy (hp.subset (h.closing_mem hw h₂))

/-- Putting two texts together makes at most one new occurrence. -/
theorem occurrences_append_le (x y : List α) :
    occurrences w (x ++ y) ≤ occurrences w x + occurrences w y + 1 := by
  by_cases hseam : ∃ w₁ w₂, w = w₁ ++ w₂ ∧ w₁ ≠ [] ∧ w₂ ≠ [] ∧ w₁ <:+ x ∧ w₂ <+: y
  · obtain ⟨w₁,w₂,hw,-,-,⟨s,rfl⟩,⟨t,rfl⟩⟩ := hseam
    have heq : s ++ w₁ ++ (w₂ ++ t) = s ++ w ++ t := by
      rw [hw]
      simp
    have hs := le_occurrences_append (w := w) s w₁
    have ht := le_occurrences_append (w := w) w₂ t
    rw [heq,h.opens.occurrences_around]
    omega
  · rw [occurrences_append]
    · omega
    · intro w₁ w₂ hw h₁ h₂ hs hp
      exact hseam ⟨w₁,w₂,hw,h₁,h₂,hs,hp⟩

end Delimited

section Cut
open Bytes
variable {w : Bytes} {a : UInt8} (h : Opens w a)
include h

/-- The first occurrence of such a word is where `strings.Cut` cuts. -/
theorem cut_opens {u : Bytes} (hu : occurrences w u = 0) (v : Bytes) :
    cut (u ++ w ++ v) w = some (u,v) := by
  induction u with
  | nil =>
    obtain ⟨b,m,hm⟩ := List.exists_cons_of_ne_nil h.ne_nil
    have hp : hasPrefix (w ++ v) w = true := by simp [hasPrefix]
    have hd : (w ++ v).drop w.length = v := List.drop_left
    rw [List.nil_append]
    rw [hm] at hp hd ⊢
    rw [List.cons_append] at hp hd ⊢
    rw [cut,if_pos hp,hd]
  | cons c u ih =>
    rw [occurrences] at hu
    have hc : ¬ w <+: c :: u := by
      intro hp
      rw [if_pos hp] at hu
      omega
    have hno : hasPrefix (c :: (u ++ w ++ v)) w = false := by
      rw [hasPrefix,Bool.eq_false_iff,ne_eq,List.isPrefixOf_iff_prefix]
      intro hp
      rcases List.prefix_or_prefix_of_prefix hp
        (show c :: u <+: c :: (u ++ w ++ v) by simp [List.append_assoc]) with hp' | ⟨w₂,hw⟩
      · exact hc hp'
      · have hw₂ : w₂ ≠ [] := by
          rintro rfl
          rw [List.append_nil] at hw
          exact hc (by rw [hw])
        have hin : (c :: u) ++ w₂ <+: (c :: u) ++ (w ++ v) := by
          rw [hw,← List.append_assoc]
          exact hp
        obtain ⟨t,ht⟩ := (List.prefix_append_right_inj _).mp hin
        apply h.head?_back hw.symm (by simp)
        have hhead := congrArg List.head? ht
        rwa [List.head?_append_of_ne_nil _ hw₂,List.head?_append_of_ne_nil _ h.ne_nil,h.head?_eq]
          at hhead
    rw [List.cons_append,List.cons_append,cut,hno,ih (by omega)]
    rfl

lemma cut_eq_some {s u v : Bytes} (hc : cut s w = some (u,v)) :
    s = u ++ w ++ v ∧ occurrences w u = 0 := by
  induction s generalizing u with
  | nil =>
    rw [cut,if_neg h.ne_nil] at hc
    cases hc
  | cons b s ih =>
    rw [cut] at hc
    split at hc
    · next hp =>
      obtain ⟨rfl,rfl⟩ := Prod.mk.inj (Option.some.inj hc)
      rw [hasPrefix,List.isPrefixOf_iff_prefix] at hp
      exact ⟨(List.prefix_iff_eq_append.mp hp).symm,rfl⟩
    · next hp =>
      obtain ⟨⟨u',v'⟩,hr,he⟩ := Option.map_eq_some_iff.mp hc
      obtain ⟨rfl,rfl⟩ := Prod.mk.inj he
      obtain ⟨rfl,hu⟩ := ih hr
      refine ⟨rfl,?_⟩
      rw [occurrences,hu,if_neg]
      intro hp'
      apply hp
      rw [hasPrefix,List.isPrefixOf_iff_prefix]
      exact hp'.trans ⟨w ++ v',by simp⟩

lemma cut_eq_none {s : Bytes} : cut s w = none ↔ occurrences w s = 0 := by
  rw [cut_eq_none_iff,occurrences_eq_zero h.ne_nil]

end Cut
