import Mathlib.Data.List.Perm.Basic
import Mathlib.Data.List.Sort
import Cadoo.Lib.Bytes

/-! Sorting is stable, sorting by Go's order of strings, and collecting values by their keys. -/
namespace Bytes

/-- Values among which any two may stand in either order keep the order they came in. -/
theorem filter_insertionSort {α : Type} {r : α → α → Prop} [DecidableRel r] [Std.Total r] [IsTrans α r]
    {l : List α} {p : α → Bool} (h : ∀ a b, p a = true → p b = true → r a b) :
    (l.insertionSort r).filter p = l.filter p := by
  have hpairs : (l.filter p).Pairwise r :=
    List.pairwise_of_forall_mem_list fun a ha b hb => h a b (List.of_mem_filter ha) (List.of_mem_filter hb)
  have hsub := (List.sublist_insertionSort hpairs List.filter_sublist).filter p
  rw [List.filter_filter] at hsub
  have hlength := ((List.perm_insertionSort r l).filter p).length_eq
  exact (hsub.eq_of_length (by simpa using hlength.symm)).symm.trans (by simp)

/-- A string may stand before another in a sorted list. -/
abbrev NotAfter (a b : Bytes) : Prop := less b a = false

lemma notAfter_iff {a b : Bytes} : NotAfter a b ↔ a ≤ b := by
  rw [NotAfter,less,decide_eq_false_iff_not]
  exact List.not_lt

instance : Std.Total NotAfter := ⟨fun a b => by
  rw [notAfter_iff,notAfter_iff]
  exact List.le_total a b⟩

instance : IsTrans Bytes NotAfter := ⟨fun a b c hab hbc => by
  rw [notAfter_iff] at *
  exact List.le_trans hab hbc⟩

lemma notAfter_antisymm {a b : Bytes} (hab : NotAfter a b) (hba : NotAfter b a) : a = b :=
  List.le_antisymm (notAfter_iff.mp hab) (notAfter_iff.mp hba)

/-- The sorted list of some strings does not depend on the order they come in. -/
theorem insertionSort_eq_of_perm {l l' : List Bytes} (h : l.Perm l') :
    l.insertionSort NotAfter = l'.insertionSort NotAfter := by
  apply List.Perm.eq_of_pairwise fun a b _ _ => notAfter_antisymm
  · exact List.pairwise_insertionSort NotAfter l
  · exact List.pairwise_insertionSort NotAfter l'
  · exact ((List.perm_insertionSort _ l).trans h).trans (List.perm_insertionSort _ l').symm

section Keys
variable {α β : Type} [DecidableEq β] [BEq β] [LawfulBEq β] (f : α → β)

/-- Values collected key by key are all collected once, when each has its key once among the keys. -/
lemma perm_flatMap_filter {keys : List β} {cs : List α} (h : ∀ c ∈ cs, keys.count (f c) = 1) :
    (keys.flatMap fun t => cs.filter fun c => f c = t).Perm cs := by
  induction keys generalizing cs with
  | nil =>
    cases cs with
    | nil => exact List.Perm.nil
    | cons c cs => exact absurd (h c List.mem_cons_self) (by simp)
  | cons t ts ih =>
    have hrest : ∀ c ∈ cs.filter (fun c => !decide (f c = t)), ts.count (f c) = 1 := by
      intro c hc
      obtain ⟨hc,hne⟩ := List.mem_filter.mp hc
      have hcount := h c hc
      have hne : t ≠ f c := fun heq => by simp [heq] at hne
      rw [List.count_cons_of_ne hne] at hcount
      exact hcount
    have hsame : ∀ k ∈ ts, cs.filter (fun c => decide (f c = k)) =
        (cs.filter fun c => !decide (f c = t)).filter fun c => decide (f c = k) := by
      intro k hk
      rw [List.filter_filter]
      refine List.filter_congr fun c hc => ?_
      by_cases hfk : f c = k
      · have hne : f c ≠ t := by
          intro heq
          have hcount := h c hc
          have hpos := List.count_pos_iff.mpr hk
          rw [← heq,hfk,List.count_cons_self] at hcount
          omega
        simp [hfk,hfk ▸ hne]
      · simp [hfk]
    rw [List.flatMap_cons,List.flatMap_congr hsame]
    exact ((ih hrest).append_left _).trans (List.filter_append_perm _ cs)

end Keys

end Bytes
