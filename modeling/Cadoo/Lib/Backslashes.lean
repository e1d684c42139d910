import Mathlib.Algebra.Ring.Parity
import Cadoo.Lib.Bytes

/-! Backslashes in a row. One takes away the meaning of what stands behind it, that of another backslash included, so
that it counts whether they are even or odd. -/
namespace Bytes

/-- How many backslashes a text ends with. -/
def slashes (s : Bytes) : ℕ := (s.rtakeWhile (· == 92)).length

/-- Whether a reader of a text is behind a backslash that is not taken itself. -/
def behind (e : Bool) (s : Bytes) : Bool := s.foldl (fun e c => c == 92 && !e) e

@[simp] lemma behind_nil (e : Bool) : behind e [] = e := rfl

@[simp] lemma behind_cons (e : Bool) (c : UInt8) (s : Bytes) : behind e (c :: s) = behind (c == 92 && !e) s := rfl

@[simp] lemma behind_append (e : Bool) (s t : Bytes) : behind e (s ++ t) = behind (behind e s) t := List.foldl_append

lemma slashes_concat (s : Bytes) : slashes (s ++ [92]) = slashes s+1 := by
  rw [slashes,List.rtakeWhile_concat_pos _ _ _ (by decide),List.length_append]
  rfl

lemma slashes_other {s : Bytes} {c : UInt8} (h : c ≠ 92) : slashes (s ++ [c]) = 0 := by
  rw [slashes,List.rtakeWhile_concat_neg _ _ _ (by simpa using h)]
  rfl

/-- A reader from the front knows whether the backslashes at the end are odd. -/
theorem behind_iff (s : Bytes) : behind false s = true ↔ Odd (slashes s) := by
  induction s using List.reverseRecOn with
  | nil => exact iff_of_false Bool.false_ne_true (by decide)
  | append_singleton s c ih =>
    rw [behind_append,behind_cons,behind_nil,Bool.and_eq_true,Bool.not_eq_true',beq_iff_eq]
    by_cases hc : c = 92
    · rw [hc,slashes_concat,Nat.odd_add_one,← ih,Bool.not_eq_true,and_iff_right rfl]
    · rw [slashes_other hc]
      exact iff_of_false (fun h => hc h.1) (by decide)

lemma behind_eq_false_iff (s : Bytes) : behind false s = false ↔ Even (slashes s) := by
  rw [← Nat.not_odd_iff_even,← behind_iff,Bool.not_eq_true]

/-- What holds of every letter, given whether a reader of the text is behind a backslash there. -/
def Throughout (P : Bool → UInt8 → Prop) (e : Bool) (s : Bytes) : Prop := ∀ u c v, s = u ++ c :: v → P (behind e u) c

section Throughout
variable {P : Bool → UInt8 → Prop} {e : Bool}

lemma throughout_nil : Throughout P e [] := fun u c v h => by simp at h

lemma throughout_cons {c : UInt8} {s : Bytes} : Throughout P e (c :: s) ↔ P e c ∧ Throughout P (c == 92 && !e) s := by
  constructor
  · exact fun h => ⟨h [] c s rfl,fun u d v hs => h (c :: u) d v (by rw [hs]; rfl)⟩
  · rintro ⟨hc,hs⟩ u d v heq
    cases u with
    | nil =>
      obtain ⟨rfl,-⟩ := List.cons_eq_cons.mp heq
      exact hc
    | cons b u =>
      obtain ⟨rfl,hrest⟩ := List.cons_eq_cons.mp heq
      exact hs u d v hrest

lemma throughout_append {s t : Bytes} : Throughout P e (s ++ t) ↔ Throughout P e s ∧ Throughout P (behind e s) t := by
  induction s generalizing e with
  | nil => exact (and_iff_right throughout_nil).symm
  | cons c s ih => rw [List.cons_append,throughout_cons,throughout_cons,ih,behind_cons,and_assoc]

end Throughout

end Bytes
