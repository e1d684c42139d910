import Cadoo.Lib.Backslashes
import Cadoo.Lib.Coding

/-! The texts of a specification as they go into the Markdown reference: escaped for Markdown and for HTML, on one
line. -/
namespace ApiDocs
open Bytes

/-- The letters that get a backslash in front. -/
def mdSpecial : Bytes := lit "\\|`*_#[]"

/-- `mdBackslashReplacer.Replace`. -/
def mdBackslashReplace (s : Bytes) : Bytes := s.flatMap fun b => if b ∈ mdSpecial then [92,b] else [b]

/-- `template.HTMLEscapeString`. -/
def HTMLEscapeString (s : Bytes) : Bytes :=
  s.flatMap fun b =>
    if b = 0 then lit "\uFFFD"
    else if b = 34 then lit "&#34;"
    else if b = 39 then lit "&#39;"
    else if b = 38 then lit "&amp;"
    else if b = 60 then lit "&lt;"
    else if b = 62 then lit "&gt;"
    else [b]

def escapeField (s : Bytes) : Bytes :=
  replaceAll (replaceAll (HTMLEscapeString (mdBackslashReplace s)) (lit "\n") (lit "<br>")) (lit "\r") []

/-- What is written for a byte. -/
def word (b : UInt8) : Bytes :=
  if b = 0 then lit "\uFFFD"
  else if b = 10 then lit "<br>"
  else if b = 13 then []
  else if b = 34 then lit "&#34;"
  else if b = 39 then lit "&#39;"
  else if b = 38 then lit "&amp;"
  else if b = 60 then lit "&lt;"
  else if b = 62 then lit "&gt;"
  else if b ∈ mdSpecial then [92,b]
  else [b]

/-- The layers of escaping together take the text byte by byte. -/
lemma escapeField_eq (s : Bytes) : escapeField s = s.flatMap word := by
  have hsingle : ∀ b, escapeField [b] = word b := forall_byte (by decide +kernel)
  have hlits : lit "\n" = [10] ∧ lit "\r" = [13] := by decide
  have hflat : ∀ t, escapeField t = t.flatMap fun b => escapeField [b] := by
    intro t
    induction t with
    | nil => rfl
    | cons b t ih =>
      rw [List.flatMap_cons,← ih]
      simp only [escapeField,HTMLEscapeString,mdBackslashReplace,hlits.1,hlits.2,replaceAll_letter,List.flatMap_cons,
        List.flatMap_append,List.flatMap_nil,List.append_nil]
  rw [hflat]
  exact List.flatMap_congr fun b _ => hsingle b

/-- What is written for a byte, by its kind. -/
lemma word_cases (b : UInt8) :
    (10 ∉ word b ∧ 13 ∉ word b) ∧ (60 ∈ word b → word b = lit "<br>") ∧
      (∀ c ∈ lit "|`*_[]", c ∈ word b → word b = [92,c]) := by
  have hall : ∀ b, (10 ∉ word b ∧ 13 ∉ word b) ∧ (60 ∈ word b → word b = lit "<br>") ∧
      List.all (lit "|`*_[]") (fun c => c ∈ word b → word b = [92,c]) = true := forall_byte (by decide +kernel)
  obtain ⟨hlines,hangle,hspecial⟩ := hall b
  exact ⟨hlines,hangle,forall_of_all hspecial⟩

/-- The byte that a text begins with the word of. -/
def firstOf : Bytes → UInt8
  | 38 :: 97 :: _ => 38
  | 38 :: 108 :: _ => 60
  | 38 :: 103 :: _ => 62
  | 38 :: 35 :: 51 :: 52 :: _ => 34
  | 38 :: 35 :: 51 :: 57 :: _ => 39
  | 60 :: _ => 10
  | 92 :: c :: _ => c
  | b :: _ => b
  | [] => 0

lemma firstOf_word {b : UInt8} (h : b ≠ 13 ∧ b ≠ 0) (t : Bytes) : firstOf (word b ++ t) = b := by
  have hlits : lit "<br>" = [60,98,114,62] ∧ lit "&#34;" = [38,35,51,52,59] ∧ lit "&#39;" = [38,35,51,57,59] ∧
      lit "&amp;" = [38,97,109,112,59] ∧ lit "&lt;" = [38,108,116,59] ∧ lit "&gt;" = [38,103,116,59] := by
    decide +kernel
  rw [word,if_neg h.2,hlits.1,hlits.2.1,hlits.2.2.1,hlits.2.2.2.1,hlits.2.2.2.2.1,hlits.2.2.2.2.2]
  split
  · next hb => rw [hb]; rfl
  rw [if_neg h.1]
  split
  · next hb => rw [hb]; rfl
  split
  · next hb => rw [hb]; rfl
  split
  · next hb => rw [hb]; rfl
  split
  · next hb => rw [hb]; rfl
  split
  · next hb => rw [hb]; rfl
  split
  · rfl
  · next _ _ _ hamp _ _ hspecial =>
    have hslash : b ≠ 92 := fun he => hspecial (by rw [he]; decide)
    simp [firstOf,hamp,hslash]

/-- A word is empty, or an escaped backslash, or it does not end with a backslash. -/
lemma word_end (b : UInt8) : word b = [] ∨ word b = [92,92] ∨ ∃ w c, word b = w ++ [c] ∧ c ≠ 92 := by
  have hall : ∀ b, word b = [] ∨ word b = [92,92] ∨ (word b).getLast? ≠ some 92 := forall_byte (by decide +kernel)
  rcases hall b with hb | hb | hb
  · exact .inl hb
  · exact .inr (.inl hb)
  · rcases List.eq_nil_or_concat' (word b) with hnil | ⟨w,c,hc⟩
    · exact .inl hnil
    · rw [hc,List.getLast?_concat] at hb
      exact .inr (.inr ⟨w,c,hc,fun he => hb (by rw [he])⟩)

/-- The backslashes at the end of what is written come in pairs. -/
lemma even_slashes (s : Bytes) : Even (slashes (s.flatMap word)) := by
  induction s using List.reverseRecOn with
  | nil => decide
  | append_singleton s b ih =>
    rw [List.flatMap_append,List.flatMap_singleton]
    rcases word_end b with hb | hb | ⟨w,c,hb,hc⟩
    · rw [hb,List.append_nil]
      exact ih
    · have hpair : ([92,92] : Bytes) = [92] ++ [92] := rfl
      rw [hb,hpair,← List.append_assoc,slashes_concat,slashes_concat]
      exact ih.add even_two
    · rw [hb,← List.append_assoc,slashes_other hc]
      exact Even.zero

/-- The text stands on one line, has no tag but line breaks, and every letter of Markdown's has a backslash of its
own. -/
structure Neutral (t : Bytes) : Prop where
  newline : 10 ∉ t
  carriage : 13 ∉ t
  tags : ∀ u v, t = u ++ 60 :: v → lit "br>" <+: v
  letters : ∀ c ∈ lit "|`*_[]", ∀ u v, t = u ++ c :: v → Odd (slashes u)

lemma neutral_escapeField (s : Bytes) : Neutral (escapeField s) := by
  rw [escapeField_eq]
  refine ⟨fun h => ?_,fun h => ?_,fun u v h => ?_,fun c hc u v h => ?_⟩
  · obtain ⟨b,-,hb⟩ := List.mem_flatMap.mp h
    exact (word_cases b).1.1 hb
  · obtain ⟨b,-,hb⟩ := List.mem_flatMap.mp h
    exact (word_cases b).1.2 hb
  · obtain ⟨s₁,b,s₂,p,q,rfl,hb,rfl,rfl⟩ := Coding.exists_word h
    have hword := (word_cases b).2.1 (by rw [hb]; simp)
    rw [hb] at hword
    cases p with
    | nil =>
      have hq : q = lit "br>" := (List.cons_eq_cons.mp hword).2
      rw [hq]
      exact List.prefix_append _ _
    | cons d p =>
      have hrest : p ++ 60 :: q = lit "br>" := (List.cons_eq_cons.mp hword).2
      have hmem : 60 ∈ lit "br>" := by
        rw [← hrest]
        simp
      exact absurd hmem (by decide)
  · obtain ⟨s₁,b,s₂,p,q,rfl,hb,rfl,rfl⟩ := Coding.exists_word h
    have hword := (word_cases b).2.2 c hc (by rw [hb]; simp)
    have hne : c ≠ 92 := by
      rintro rfl
      exact absurd hc (by decide)
    rw [hb] at hword
    match p with
    | [] => exact absurd (List.cons_eq_cons.mp hword).1 hne
    | d :: [] =>
      obtain ⟨rfl,-⟩ := List.cons_eq_cons.mp hword
      rw [slashes_concat]
      exact (even_slashes s₁).add_one
    | d :: e :: p =>
      have hlength := congrArg List.length hword
      simp at hlength

/-- Whatever is escaped is neutral, and no two texts without carriage returns and zero bytes are escaped alike. -/
theorem escapeField_neutral : (∀ s, Neutral (escapeField s)) ∧
    ∀ s t : Bytes, (∀ b ∈ s, b ≠ 13 ∧ b ≠ 0) → (∀ b ∈ t, b ≠ 13 ∧ b ≠ 0) → escapeField s = escapeField t → s = t := by
  refine ⟨neutral_escapeField,fun s t hs ht h => ?_⟩
  rw [escapeField_eq,escapeField_eq] at h
  refine Coding.flatMap_inj firstOf (fun b t hb => firstOf_word hb t) (fun b hb hnil => ?_) hs ht h
  have hnone := firstOf_word hb []
  rw [hnil] at hnone
  exact hb.2 hnone.symm

/-- A pipe that is escaped in the specification already is told from one that is not. -/
theorem escaped_pipe_apart : Neutral (escapeField (lit "a\\|b")) ∧ escapeField (lit "a|b") ≠ escapeField (lit "a\\|b") := by
  refine ⟨escapeField_neutral.1 _,fun h => ?_⟩
  exact absurd (escapeField_neutral.2 _ _ (by decide +kernel) (by decide +kernel) h) (by decide)

example : escapeField (lit "a|b\n<i>\\_") = lit "a\\|b<br>&lt;i&gt;\\\\\\_" := by decide +kernel

end ApiDocs
