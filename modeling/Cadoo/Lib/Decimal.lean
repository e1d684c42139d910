import Cadoo.Lib.Bytes
import Cadoo.Lib.GoInt

/-! Decimal numbers read back from a text: the digits at its front and their value. -/
namespace Bytes

def isDecimal (b : UInt8) : Bool := 48 ≤ b && b ≤ 57

/-- The value of a run of digits. -/
def digitsValue (ds : Bytes) : ℕ := ds.foldl (fun n b => 10*n + (b.toNat-48)) 0

/-- The digits at the front of a text and what follows them. -/
def spanDigits (s : Bytes) : Bytes × Bytes := (s.takeWhile isDecimal,s.dropWhile isDecimal)

/-- An optional minus sign and at least one digit at the front of a text, with what follows. -/
def readInt (s : Bytes) : Option (ℤ × Bytes) :=
  match s with
  | 45 :: s =>
    match spanDigits s with
    | ([],_) => none
    | (ds,rest) => some (-(digitsValue ds : ℤ),rest)
  | s =>
    match spanDigits s with
    | ([],_) => none
    | (ds,rest) => some ((digitsValue ds : ℤ),rest)

/-- `strconv.ParseInt` to the base 10, for 64 bits. -/
def ParseInt (s : Bytes) : Option ℤ :=
  let neg := decide (s.head? = some 45)
  let ds := if s.head? = some 45 ∨ s.head? = some 43 then s.tail else s
  if ds = [] ∨ ds.all isDecimal = false then none
  else
    let n : ℤ := if neg then -(digitsValue ds : ℤ) else digitsValue ds
    if GoInt.Fits n then some n else none

/-- What comes next is no further digit. -/
def NoDigit (s : Bytes) : Prop := ∀ b ∈ s.head?, isDecimal b = false

lemma toNat_of_mem_toDigits {n : ℕ} {c : Char} (h : c ∈ Nat.toDigits 10 n) :
    48 ≤ c.toNat ∧ c.toNat ≤ 57 := by
  have hd := Nat.isDigit_of_mem_toDigits (by omega) (by omega) h
  simp only [Char.isDigit,Bool.and_eq_true,decide_eq_true_eq] at hd
  exact ⟨UInt32.le_iff_toNat_le.mp hd.1,UInt32.le_iff_toNat_le.mp hd.2⟩

lemma natDecimal_eq_map (n : ℕ) :
    natDecimal n = (Nat.toDigits 10 n).map fun c => UInt8.ofNat c.toNat := by
  rw [natDecimal,List.map_eq_flatMap]
  apply List.flatMap_congr
  intro c hc
  have hle : c.toNat ≤ 127 := (toNat_of_mem_toDigits hc).2.trans (by omega)
  simp [String.utf8EncodeChar,hle]

lemma isDecimal_of_mem_natDecimal {n : ℕ} {b : UInt8} (h : b ∈ natDecimal n) :
    isDecimal b = true := by
  rw [natDecimal_eq_map] at h
  obtain ⟨c,hc,rfl⟩ := List.mem_map.mp h
  obtain ⟨h₁,h₂⟩ := toNat_of_mem_toDigits hc
  have hb : (UInt8.ofNat c.toNat).toNat = c.toNat := UInt8.toNat_ofNat_of_lt' (by change _ < 256; omega)
  simp only [isDecimal,UInt8.le_iff_toNat_le,hb,Bool.and_eq_true,decide_eq_true_eq]
  exact ⟨h₁,h₂⟩

/-- A printed integer starts with a digit or a minus sign. -/
lemma intDecimal_front (n : ℤ) : ∃ b t, intDecimal n = b :: t ∧ (isDecimal b = true ∨ b = 45) := by
  cases n with
  | ofNat m =>
    obtain ⟨b,t,h⟩ := List.exists_cons_of_ne_nil (natDecimal_ne_nil m)
    exact ⟨b,t,h,.inl (isDecimal_of_mem_natDecimal (n := m) (by simp [h]))⟩
  | negSucc m => exact ⟨45,natDecimal (m+1),rfl,.inr rfl⟩

@[simp] lemma digitsValue_natDecimal (n : ℕ) : digitsValue (natDecimal n) = n := by
  have h : ∀ (cs : List Char) (k : ℕ), (∀ c ∈ cs, 48 ≤ c.toNat ∧ c.toNat ≤ 57) →
      (cs.map fun c => UInt8.ofNat c.toNat).foldl (fun n b => 10*n + (b.toNat-48)) k =
        Nat.ofDigitChars 10 cs k := by
    intro cs
    induction cs with
    | nil => simp
    | cons c cs ih =>
      intro k hcs
      have hd := hcs c (by simp)
      have hc : (UInt8.ofNat c.toNat).toNat = c.toNat := UInt8.toNat_ofNat_of_lt' (by change _ < 256; omega)
      rw [List.map_cons,List.foldl_cons,hc,ih _ fun d hd => hcs d (by simp [hd]),
        Nat.ofDigitChars_cons]
      rfl
  rw [digitsValue,natDecimal_eq_map,h _ 0 fun c hc => toNat_of_mem_toDigits hc]
  exact Nat.ofDigitChars_ten_toDigits

lemma spanDigits_append {ds rest : Bytes} (hds : ∀ b ∈ ds, isDecimal b = true)
    (hrest : NoDigit rest) : spanDigits (ds ++ rest) = (ds,rest) := by
  induction ds with
  | nil =>
    cases rest with
    | nil => rfl
    | cons b rest => simp [spanDigits,hrest b (by simp)]
  | cons d ds ih =>
    have ih := ih fun b hb => hds b (by simp [hb])
    simp only [spanDigits,Prod.mk.injEq] at ih ⊢
    simp [hds d (by simp),ih.1,ih.2]

/-- Printed integers are read back, whatever follows them but a digit. -/
theorem readInt_intDecimal (n : ℤ) {rest : Bytes} (h : NoDigit rest) :
    readInt (intDecimal n ++ rest) = some (n,rest) := by
  have hspan : ∀ m : ℕ, spanDigits (natDecimal m ++ rest) = (natDecimal m,rest) :=
    fun m => spanDigits_append (fun b hb => isDecimal_of_mem_natDecimal hb) h
  cases n with
  | ofNat m =>
    obtain ⟨d,ds,hd⟩ := List.exists_cons_of_ne_nil (natDecimal_ne_nil m)
    have hs := hspan m
    have hv := digitsValue_natDecimal m
    have hne : d ≠ 45 := by
      rintro rfl
      have := isDecimal_of_mem_natDecimal (n := m) (b := 45) (by simp [hd])
      exact absurd this (by decide)
    rw [intDecimal]
    rw [hd] at hs hv ⊢
    rw [List.cons_append] at hs ⊢
    rw [readInt]
    · rw [hs]
      simp [hv]
    · intro s he
      exact hne (List.cons_eq_cons.mp he).1
  | negSucc m =>
    obtain ⟨d,ds,hd⟩ := List.exists_cons_of_ne_nil (natDecimal_ne_nil (m+1))
    have hs := hspan (m+1)
    have hv := digitsValue_natDecimal (m+1)
    have hlit : lit "-" = [45] := by decide
    rw [intDecimal,hlit]
    rw [hd] at hs hv ⊢
    change readInt (45 :: ((d :: ds) ++ rest)) = _
    rw [readInt,hs]
    simp only [hv]
    rfl

/-- A printed number is read back, when it fits. -/
lemma ParseInt_natDecimal {n : ℕ} (h : (n : ℤ) ≤ GoInt.maxInt) : ParseInt (natDecimal n) = some (n : ℤ) := by
  obtain ⟨b,t,hb⟩ := List.exists_cons_of_ne_nil (natDecimal_ne_nil n)
  have hdigit : isDecimal b = true := isDecimal_of_mem_natDecimal (n := n) (by simp [hb])
  have hne : b ≠ 45 ∧ b ≠ 43 := by
    constructor
    · rintro rfl
      exact absurd hdigit (by decide)
    · rintro rfl
      exact absurd hdigit (by decide)
  have hhead : (natDecimal n).head? ≠ some 45 ∧ (natDecimal n).head? ≠ some 43 := by
    rw [hb,List.head?_cons]
    exact ⟨by simpa using hne.1,by simpa using hne.2⟩
  have hall : (natDecimal n).all isDecimal = true := List.all_eq_true.mpr fun c hc => isDecimal_of_mem_natDecimal hc
  have hfits : GoInt.Fits (n : ℤ) := ⟨by unfold GoInt.minInt; omega,h⟩
  rw [ParseInt]
  simp only [hhead.1,hhead.2,or_self,if_false,natDecimal_ne_nil,hall,Bool.true_eq_false,decide_false,
    digitsValue_natDecimal,Bool.false_eq_true,if_pos hfits]

end Bytes
