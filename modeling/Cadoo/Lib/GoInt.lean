import Mathlib.Data.Int.Notation
import Mathlib.Tactic.Lemma

/-! Go's `int`: 64 bits, wrapping around. -/
namespace GoInt

def minInt : ℤ := -9223372036854775808
def maxInt : ℤ := 9223372036854775807

/-- The numbers of the type. -/
def Fits (n : ℤ) : Prop := minInt ≤ n ∧ n ≤ maxInt

instance : DecidablePred Fits := fun _ => inferInstanceAs (Decidable (_ ∧ _))

def wrap (n : ℤ) : ℤ := (n + 9223372036854775808) % 18446744073709551616 - 9223372036854775808

lemma wrap_of_fits {n : ℤ} (h : minInt ≤ n) (h' : n ≤ maxInt) : wrap n = n := by
  unfold minInt at h
  unfold maxInt at h'
  rw [wrap]
  omega

/-- Only the smallest number has a predecessor that is not one less. -/
lemma wrap_pred {n : ℤ} (h : minInt ≤ n) (h' : n ≤ maxInt) :
    wrap (n-1) = if n = minInt then maxInt else n-1 := by
  unfold minInt at h ⊢
  unfold maxInt at h' ⊢
  rw [wrap]
  split <;> omega

lemma wrap_le {n : ℤ} (h : minInt ≤ n) : wrap n ≤ n := by
  unfold minInt at h
  unfold wrap
  omega

lemma wrap_fits (n : ℤ) : Fits (wrap n) := by
  unfold Fits minInt maxInt wrap
  omega

end GoInt
