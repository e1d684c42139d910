import Cadoo.Lib.Decimal
import Cadoo.Lib.JsonString

/-! JSON documents: printing without blanks, reading by the grammar, and that reading undoes printing.
Numbers are decimal floating point, and an object keeps the order of its members. -/

/-- A document. The number of mantissa `m` and exponent `e` is `m * 10^e`. -/
inductive Json where
  | null
  | bool (b : Bool)
  | num (mantissa exponent : ℤ)
  | str (s : Bytes)
  | arr (elems : List Json)
  | obj (members : List (Bytes × Json))

namespace Json
open Bytes Utf8

/-- Induction over a document, the members of its lists included. -/
@[induction_eliminator]
theorem ind {P : Json → Prop} (null : P .null) (bool : ∀ b, P (.bool b)) (num : ∀ m e, P (.num m e))
    (str : ∀ s, P (.str s)) (arr : ∀ xs, (∀ x ∈ xs, P x) → P (.arr xs))
    (obj : ∀ ms, (∀ m ∈ ms, P m.2) → P (.obj ms)) (j : Json) : P j := by
  refine @Json.rec P (fun xs => ∀ x ∈ xs, P x) (fun ms => ∀ m ∈ ms, P m.2) (fun m => P m.2)
    null bool num str arr obj (by simp) ?_ (by simp) ?_ (fun _ _ ih => ih) j
  · intro x xs hx hxs y hy
    rcases List.mem_cons.mp hy with rfl | hy
    · exact hx
    · exact hxs y hy
  · intro m ms hm hms n hn
    rcases List.mem_cons.mp hn with rfl | hn
    · exact hm
    · exact hms n hn

def printNumber (m e : ℤ) : Bytes := intDecimal m ++ if e = 0 then [] else 101 :: intDecimal e

def commaSep (parts : List Bytes) : Bytes := [44].intercalate parts

mutual

def print : Json → Bytes
  | null => lit "null"
  | bool b => if b then lit "true" else lit "false"
  | num m e => printNumber m e
  | str s => quote s
  | arr xs => 91 :: (commaSep (printAll xs) ++ [93])
  | obj ms => 123 :: (commaSep (printMembers ms) ++ [125])

def printAll : List Json → List Bytes
  | [] => []
  | x :: xs => print x :: printAll xs

def printMembers : List (Bytes × Json) → List Bytes
  | [] => []
  | (k,v) :: ms => (quote k ++ 58 :: print v) :: printMembers ms

end

mutual

/-- A document with the invalid bytes of its strings replaced. -/
def repaired : Json → Json
  | null => null
  | bool b => bool b
  | num m e => num m e
  | str s => str (repair s)
  | arr xs => arr (repairedAll xs)
  | obj ms => obj (repairedMembers ms)

def repairedAll : List Json → List Json
  | [] => []
  | x :: xs => repaired x :: repairedAll xs

def repairedMembers : List (Bytes × Json) → List (Bytes × Json)
  | [] => []
  | (k,v) :: ms => (repair k,repaired v) :: repairedMembers ms

end

def isBlank (b : UInt8) : Bool := b == 32 || b == 9 || b == 10 || b == 13
def skipBlank (s : Bytes) : Bytes := s.dropWhile isBlank

/-- The digits after a decimal point, when there is one. -/
def readFraction (s : Bytes) : Option (Bytes × Bytes) :=
  if s.head? = some 46 then
    let r := spanDigits (s.drop 1)
    if r.1 = [] then none else some r
  else some ([],s)

def readExponent (s : Bytes) : Option (ℤ × Bytes) :=
  if s.head? = some 101 ∨ s.head? = some 69 then
    let s := s.drop 1
    if s.head? = some 43 then
      let r := spanDigits (s.drop 1)
      if r.1 = [] then none else some (digitsValue r.1,r.2)
    else readInt s
  else some (0,s)

/-- A number: no superfluous zero in front, digits after the point and the exponent sign. -/
def readNumber (s : Bytes) : Option (Json × Bytes) :=
  let neg := s.head? = some 45
  let s := if neg then s.drop 1 else s
  let (ip,s) := if s.head? = some 48 then ([48],s.drop 1) else spanDigits s
  if ip = [] then none
  else
    match readFraction s with
    | none => none
    | some (fp,s) =>
      match readExponent s with
      | none => none
      | some (e,s) =>
        let m : ℤ := digitsValue (ip ++ fp)
        some (num (if neg then -m else m) (e-fp.length),s)

def readWord (s : Bytes) : Option (Json × Bytes) :=
  if hasPrefix s (lit "null") then some (null,s.drop 4)
  else if hasPrefix s (lit "true") then some (bool true,s.drop 4)
  else if hasPrefix s (lit "false") then some (bool false,s.drop 5)
  else none

/-- At least one item, commas between them, up to the closing byte. -/
def readSep {α : Type} (close : UInt8) (item : Bytes → Option (α × Bytes)) :
    ℕ → Bytes → Option (List α × Bytes)
  | 0, _ => none
  | n+1, s =>
    match item s with
    | none => none
    | some (x,s) =>
      match skipBlank s with
      | [] => none
      | b :: s =>
        if b = 44 then (readSep close item n s).map fun r => (x :: r.1,r.2)
        else if b = close then some ([x],s)
        else none

/-- Everything between the brackets of a list. -/
def readList {α : Type} (close : UInt8) (item : Bytes → Option (α × Bytes)) (n : ℕ) (s : Bytes) :
    Option (List α × Bytes) :=
  if (skipBlank s).head? = some close then some ([],(skipBlank s).drop 1) else readSep close item n s

def readMember (value : Bytes → Option (Json × Bytes)) (s : Bytes) :
    Option ((Bytes × Json) × Bytes) :=
  match skipBlank s with
  | 34 :: s =>
    match readQuoted s with
    | none => none
    | some (k,s) =>
      match skipBlank s with
      | 58 :: s => (value s).map fun r => ((k,r.1),r.2)
      | _ => none
  | _ => none

/-- One value at the front of a text. The first argument bounds the depth and the length of lists. -/
def readValue : ℕ → Bytes → Option (Json × Bytes)
  | 0, _ => none
  | n+1, s =>
    match skipBlank s with
    | [] => none
    | b :: s =>
      if b = 34 then (readQuoted s).map fun r => (str r.1,r.2)
      else if b = 91 then (readList 93 (readValue n) n s).map fun r => (arr r.1,r.2)
      else if b = 123 then (readList 125 (readMember (readValue n)) n s).map fun r => (obj r.1,r.2)
      else (readWord (b :: s)).or (readNumber (b :: s))

/-- A whole text as one document. -/
def parse (s : Bytes) : Option Json :=
  match readValue s.length s with
  | some (j,rest) => if skipBlank rest = [] then some j else none
  | none => none

lemma printAll_eq_map (xs : List Json) : printAll xs = xs.map print := by
  induction xs with
  | nil => rfl
  | cons x xs ih => rw [printAll,ih,List.map_cons]

def printMember (m : Bytes × Json) : Bytes := quote m.1 ++ 58 :: print m.2
def repairedMember (m : Bytes × Json) : Bytes × Json := (repair m.1,repaired m.2)

lemma printMembers_eq_map (ms : List (Bytes × Json)) : printMembers ms = ms.map printMember := by
  induction ms with
  | nil => rfl
  | cons m ms ih => rw [printMembers,ih,List.map_cons,printMember]

lemma repairedAll_eq_map (xs : List Json) : repairedAll xs = xs.map repaired := by
  induction xs with
  | nil => rfl
  | cons x xs ih => rw [repairedAll,ih,List.map_cons]

lemma repairedMembers_eq_map (ms : List (Bytes × Json)) :
    repairedMembers ms = ms.map repairedMember := by
  induction ms with
  | nil => rfl
  | cons m ms ih => rw [repairedMembers,ih,List.map_cons,repairedMember]

/-- What comes next cannot be part of a number. -/
def Ends (s : Bytes) : Prop :=
  NoDigit s ∧ s.head? ≠ some 46 ∧ s.head? ≠ some 101 ∧ s.head? ≠ some 69

lemma natDecimal_head {n : ℕ} (h : (natDecimal n).head? = some 48) : natDecimal n = [48] := by
  have hzero : ∀ n : ℕ, (Nat.toDigits 10 n).head? = some '0' → n = 0 := by
    intro n
    induction n using Nat.strongRecOn with
    | ind n ih =>
      intro hd
      rw [Nat.toDigits_eq_if (by omega)] at hd
      split at hd
      · exact Nat.digitChar_eq_zero.mp (Option.some.inj hd)
      · rw [List.head?_append_of_ne_nil _ Nat.toDigits_ne_nil] at hd
        have := ih (n/10) (by omega) hd
        omega
  suffices hn : n = 0 by subst hn; decide
  apply hzero
  rw [natDecimal_eq_map,List.head?_map] at h
  obtain ⟨c,hc,h48⟩ := Option.map_eq_some_iff.mp h
  have hb := toNat_of_mem_toDigits (List.mem_of_head? hc)
  have hcn : (UInt8.ofNat c.toNat).toNat = c.toNat := UInt8.toNat_ofNat_of_lt' (by change _ < 256; omega)
  rw [hc,← Char.ofNat_toNat c,← hcn,h48]
  rfl

lemma skipBlank_cons {b : UInt8} (h : isBlank b = false) (s : Bytes) :
    skipBlank (b :: s) = b :: s := by
  rw [skipBlank,List.dropWhile_cons,h,if_neg Bool.false_ne_true]

lemma commaSep_cons (x y : Bytes) (l : List Bytes) :
    commaSep (x :: y :: l) = x ++ 44 :: commaSep (y :: l) := by
  rw [commaSep,List.intercalate_cons_cons,List.append_assoc]
  rfl

lemma commaSep_singleton (x : Bytes) : commaSep [x] = x := List.intercalate_singleton

lemma commaSep_eq_flatMap (x : Bytes) (l : List Bytes) :
    commaSep (x :: l) = x ++ l.flatMap (44 :: ·) := by
  induction l generalizing x with
  | nil => rw [commaSep_singleton,List.flatMap_nil,List.append_nil]
  | cons y l ih => rw [commaSep_cons,ih,List.flatMap_cons,List.cons_append]

lemma ends_cons {b : UInt8} (h : b = 44 ∨ b = 93 ∨ b = 125) (s : Bytes) : Ends (b :: s) := by
  refine ⟨fun c hc => ?_,?_⟩
  · obtain rfl : b = c := Option.some.inj hc
    rcases h with rfl | rfl | rfl <;> decide
  · simp only [List.head?_cons]
    rcases h with rfl | rfl | rfl <;> decide

lemma length_le_commaSep {parts : List Bytes} (h : ∀ p ∈ parts, p ≠ []) :
    parts.length ≤ (commaSep parts).length ∧ ∀ p ∈ parts, p.length ≤ (commaSep parts).length := by
  induction parts with
  | nil => simp
  | cons p ps ih =>
    obtain ⟨h₁,h₂⟩ := ih fun q hq => h q (by simp [hq])
    have hp := List.length_pos_of_ne_nil (h p (by simp))
    cases ps with
    | nil =>
      rw [commaSep_singleton]
      simp
      omega
    | cons q qs =>
      rw [commaSep_cons]
      simp only [List.length_cons,List.length_append] at h₁ ⊢
      refine ⟨by omega,fun r hr => ?_⟩
      rcases List.mem_cons.mp hr with rfl | hr
      · omega
      · have := h₂ r hr
        omega

lemma readWord_none {b : UInt8} (h : isDecimal b = true ∨ b = 45) (s : Bytes) :
    readWord (b :: s) = none := by
  have hne : b ≠ 110 ∧ b ≠ 116 ∧ b ≠ 102 := by
    refine ⟨?_,?_,?_⟩ <;>
    · rintro rfl
      revert h
      decide
  have hword : ∀ (c : UInt8) (t : Bytes), b ≠ c → hasPrefix (b :: s) (c :: t) = false := by
    intro c t hc
    rw [hasPrefix,List.isPrefixOf_cons_cons,Bool.and_eq_false_iff]
    exact .inl (beq_eq_false_iff_ne.mpr fun he => hc he.symm)
  have hnull : lit "null" = 110 :: lit "ull" := by decide
  have htrue : lit "true" = 116 :: lit "rue" := by decide
  have hfalse : lit "false" = 102 :: lit "alse" := by decide
  rw [readWord,hnull,htrue,hfalse,hword _ _ hne.1,hword _ _ hne.2.1,hword _ _ hne.2.2]
  rfl

/-- The items of a printed list fit into what is left of the bound after its brackets. -/
lemma items_fit {parts : List Bytes} {n : ℕ} {l r : UInt8} (h : ∀ p ∈ parts, p ≠ [])
    (hn : (l :: (commaSep parts ++ [r])).length ≤ n+1) :
    parts.length ≤ n ∧ ∀ p ∈ parts, p.length ≤ n := by
  obtain ⟨h₁,h₂⟩ := length_le_commaSep h
  simp only [List.length_cons,List.length_append,List.length_nil] at hn
  refine ⟨by omega,fun p hp => ?_⟩
  have := h₂ p hp
  omega

end Json
