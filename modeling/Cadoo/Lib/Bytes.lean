import Mathlib.Data.List.DropRight
import Mathlib.Data.List.Infix
import Mathlib.Data.Nat.Notation
import Mathlib.Data.Int.Notation
import Mathlib.Tactic.Lemma

/-! Byte strings with the operations of Go's `strings` package that work on bytes. A string is a
list of octets, valid UTF-8 or not, as a Go string is. -/

abbrev Bytes := List UInt8

instance : LawfulBEq Bytes := inferInstance

namespace Bytes

/-- A source literal: the UTF-8 octets of a Lean string. -/
def lit (s : String) : Bytes := s.toList.flatMap String.utf8EncodeChar

def newline : UInt8 := 10
def space : UInt8 := 32

def hasPrefix (s p : Bytes) : Bool := p.isPrefixOf s
def hasSuffix (s p : Bytes) : Bool := p.isSuffixOf s

def trimPrefix (s p : Bytes) : Bytes := if hasPrefix s p then s.drop p.length else s
def trimSuffix (s p : Bytes) : Bytes := if hasSuffix s p then s.take (s.length - p.length) else s

/-- `strings.TrimRight` with a one-byte cutset. -/
def trimRight (s : Bytes) (b : UInt8) : Bytes := s.rdropWhile (· == b)

def contains (s sub : Bytes) : Bool := decide (sub <:+: s)

/-- Text before and after the first occurrence of `sep`, as `strings.Cut`. -/
def cut : Bytes → Bytes → Option (Bytes × Bytes)
  | [], sep => if sep = [] then some ([],[]) else none
  | b :: s, sep =>
    if hasPrefix (b :: s) sep then some ([],(b :: s).drop sep.length)
    else (cut s sep).map fun r => (b :: r.1,r.2)

/-- `strings.SplitN` with a non-empty separator. -/
def splitN (s sep : Bytes) : ℕ → List Bytes
  | 0 => []
  | 1 => [s]
  | n+2 =>
    match cut s sep with
    | some (front,rest) => front :: splitN rest sep (n+1)
    | none => [s]

/-- `strings.Split` with a non-empty separator. -/
def split (s sep : Bytes) : List Bytes := splitN s sep (s.length+1)

/-- One left-to-right pass of `strings.ReplaceAll` for a non-empty `old`; the first argument
counts the bytes of a match that are still to be passed over. -/
def replaceFrom (old new : Bytes) : ℕ → Bytes → Bytes
  | _, [] => []
  | k+1, _ :: s => replaceFrom old new k s
  | 0, b :: s =>
    if hasPrefix (b :: s) old then new ++ replaceFrom old new (old.length-1) s
    else b :: replaceFrom old new 0 s

def replaceAll (s old new : Bytes) : Bytes := replaceFrom old new 0 s

/-- Decimal digits of a natural number, as `%d` prints them. -/
def natDecimal (n : ℕ) : Bytes := (Nat.toDigits 10 n).flatMap String.utf8EncodeChar

def intDecimal : ℤ → Bytes
  | .ofNat n => natDecimal n
  | .negSucc n => lit "-" ++ natDecimal (n+1)

/-- Go's `<` on strings is the lexicographic order of the octets. -/
def less (a b : Bytes) : Bool := decide (a < b)

section Checked
variable {P : UInt8 → Prop}

/-- What is checked of each letter of a text. -/
lemma forall_of_all [DecidablePred P] {s : Bytes} (h : s.all (fun b => P b) = true) : ∀ b ∈ s, P b :=
  fun b hb => of_decide_eq_true (List.all_eq_true.mp h b hb)

/-- What is checked of each byte below a bound. -/
lemma forall_below {k : ℕ} (h : ∀ n : Fin k, P (UInt8.ofNat n)) (b : UInt8) (hb : b.toNat < k) : P b := by
  have hn := h ⟨b.toNat,hb⟩
  change P (UInt8.ofNat b.toNat) at hn
  rwa [UInt8.ofNat_toNat] at hn

lemma forall_byte (h : ∀ n : Fin 256, P (UInt8.ofNat n)) (b : UInt8) : P b := forall_below h b b.toNat_lt

lemma forall_ascii (h : ∀ n : Fin 128, P (UInt8.ofNat n)) (b : UInt8) (hb : b < 128) : P b :=
  forall_below h b (UInt8.lt_iff_toNat_lt.mp hb)

lemma forall_control (h : ∀ n : Fin 32, P (UInt8.ofNat n)) (b : UInt8) (hb : b < 32) : P b :=
  forall_below h b (UInt8.lt_iff_toNat_lt.mp hb)

end Checked

/-- Where an element of a concatenation stands: in the first part or in the second. -/
lemma append_eq_append_cons {α : Type} {x y a b : List α} {c : α} (h : x ++ y = a ++ c :: b) :
    (∃ g, x = a ++ c :: g ∧ b = g ++ y) ∨ ∃ g, a = x ++ g ∧ y = g ++ c :: b := by
  rcases List.append_eq_append_iff.mp h with ⟨g,ha,hy⟩ | ⟨g,hx,hb⟩
  · exact .inr ⟨g,ha,hy⟩
  · cases g with
    | nil => exact .inr ⟨[],by simpa using hx.symm,by simpa using hb.symm⟩
    | cons d g =>
      obtain ⟨rfl,hg⟩ : c = d ∧ b = g ++ y := by simpa using hb
      exact .inl ⟨g,hx,hg⟩

/-- Where an element stands in a list with one more in front. -/
lemma exists_split_cons {α : Type} {P : α → Prop} {a x : α} {l : List α} :
    (∃ pre post, a :: l = pre ++ x :: post ∧ ∀ z ∈ pre, P z) ↔
      a = x ∨ P a ∧ ∃ pre post, l = pre ++ x :: post ∧ ∀ z ∈ pre, P z := by
  constructor
  · rintro ⟨pre,post,h,hpre⟩
    cases pre with
    | nil => exact .inl (List.cons_eq_cons.mp h).1
    | cons b pre =>
      obtain ⟨rfl,rfl⟩ := List.cons_eq_cons.mp h
      exact .inr ⟨hpre a (by simp),pre,post,rfl,fun z hz => hpre z (by simp [hz])⟩
  · rintro (rfl | ⟨ha,pre,post,rfl,hpre⟩)
    · exact ⟨[],l,rfl,by simp⟩
    · exact ⟨a :: pre,post,rfl,by simpa [ha] using hpre⟩

/-- The part before an element's first place is determined. -/
lemma append_cons_front {α : Type} {a b c d : List α} {x : α} (ha : x ∉ a) (hc : x ∉ c)
    (h : a ++ x :: b = c ++ x :: d) : a = c := by
  rcases append_eq_append_cons h with ⟨g,rfl,-⟩ | ⟨g,rfl,hg⟩
  · simp at ha
  · cases g with
    | nil => simp
    | cons y g =>
      obtain ⟨rfl,-⟩ := List.cons_eq_cons.mp hg
      simp at hc

section Trim
variable (s t : Bytes) (b : UInt8)

/-- Trimming takes a block of the cut byte off the end and nothing else. -/
theorem trimRight_append_replicate : ∃ n, s = trimRight s b ++ List.replicate n b := by
  obtain ⟨u,hu⟩ := s.rdropWhile_prefix (· == b)
  refine ⟨u.length,?_⟩
  suffices h : u = List.replicate u.length b by
    rw [trimRight,← h]
    exact hu.symm
  apply List.eq_replicate_of_mem
  intro x hx
  have hr : u = s.rtakeWhile (· == b) := by
    suffices h : s.rdropWhile (· == b) ++ u = s.rdropWhile (· == b) ++ s.rtakeWhile (· == b) from
      List.append_cancel_left h
    rw [hu,List.rdropWhile,List.rtakeWhile,← List.reverse_append,List.takeWhile_append_dropWhile,
      List.reverse_reverse]
  rw [hr] at hx
  simpa using List.mem_rtakeWhile_imp hx

lemma trimRight_getLast_ne (h : trimRight s b ≠ []) : (trimRight s b).getLast h ≠ b := by
  simpa [trimRight] using List.rdropWhile_last_not (· == b) s h

@[simp] lemma trimRight_append_replicate_self (n : ℕ) :
    trimRight (s ++ List.replicate n b) b = trimRight s b := by
  induction n with
  | zero => simp
  | succ n ih =>
    rw [List.replicate_succ',← List.append_assoc,trimRight,List.rdropWhile_concat_pos _ _ _ (by simp)]
    exact ih

variable {s b}

/-- Trimming stops at the last byte of another kind. -/
lemma trimRight_append (hs : s ≠ []) (hlast : ∀ h : s ≠ [], s.getLast h ≠ b) :
    trimRight (s ++ t) b = s ++ trimRight t b := by
  obtain ⟨n,hn⟩ := trimRight_append_replicate t b
  have hself : trimRight (s ++ trimRight t b) b = s ++ trimRight t b := by
    refine List.rdropWhile_eq_self_iff.mpr fun hne => ?_
    rw [beq_iff_eq]
    by_cases ht : trimRight t b = []
    · simp only [ht,List.append_nil]
      exact hlast hs
    · rw [List.getLast_append_of_ne_nil hne ht]
      exact trimRight_getLast_ne t b ht
  calc trimRight (s ++ t) b = trimRight (s ++ trimRight t b ++ List.replicate n b) b := by
        rw [List.append_assoc,← hn]
    _ = s ++ trimRight t b := by rw [trimRight_append_replicate_self,hself]

variable (s b)

@[simp] lemma trimRight_trimRight : trimRight (trimRight s b) b = trimRight s b :=
  List.rdropWhile_idempotent _ _

end Trim

lemma natDecimal_ne_nil (n : ℕ) : natDecimal n ≠ [] := by
  obtain ⟨c,cs,h⟩ := List.exists_cons_of_ne_nil (Nat.toDigits_ne_nil (n := n) (b := 10))
  have hc := String.length_utf8EncodeChar c
  have hpos := c.utf8Size_pos
  rw [natDecimal,h,List.flatMap_cons]
  intro hnil
  have hlen := congrArg List.length hnil
  simp at hlen
  omega

lemma intDecimal_ne_nil (n : ℤ) : intDecimal n ≠ [] := by
  cases n with
  | ofNat n => exact natDecimal_ne_nil n
  | negSucc n => exact List.append_ne_nil_of_right_ne_nil _ (natDecimal_ne_nil (n+1))

lemma mem_trimPrefix {s p : Bytes} {x : UInt8} (h : x ∈ trimPrefix s p) : x ∈ s := by
  unfold trimPrefix at h
  split at h
  · exact List.mem_of_mem_drop h
  · exact h

lemma mem_trimSuffix {s p : Bytes} {x : UInt8} (h : x ∈ trimSuffix s p) : x ∈ s := by
  unfold trimSuffix at h
  split at h
  · exact List.mem_of_mem_take h
  · exact h

/-- A cut leaves nothing out but the separator. -/
lemma eq_of_cut {s sep u v : Bytes} (h : cut s sep = some (u,v)) : s = u ++ sep ++ v := by
  induction s generalizing u with
  | nil =>
    rw [cut] at h
    split at h
    · next hsep =>
      obtain ⟨rfl,rfl⟩ := Prod.mk.inj (Option.some.inj h)
      rw [hsep]
      rfl
    · cases h
  | cons b s ih =>
    rw [cut] at h
    split at h
    · next hp =>
      obtain ⟨rfl,rfl⟩ := Prod.mk.inj (Option.some.inj h)
      rw [hasPrefix,List.isPrefixOf_iff_prefix] at hp
      exact (List.prefix_iff_eq_append.mp hp).symm
    · obtain ⟨⟨u',v'⟩,hr,he⟩ := Option.map_eq_some_iff.mp h
      obtain ⟨rfl,rfl⟩ := Prod.mk.inj he
      exact congrArg (List.cons b) (ih hr)

lemma cut_eq_none_iff {s w : Bytes} : cut s w = none ↔ ¬ w <:+: s := by
  induction s with
  | nil =>
    rw [cut,List.infix_nil]
    split
    · next h => exact iff_of_false (by simp) fun hn => hn h
    · next h => exact iff_of_true rfl h
  | cons b s ih =>
    rw [cut,List.infix_cons_iff,hasPrefix]
    split
    · next h => exact iff_of_false (by simp) fun hn => hn (.inl (List.isPrefixOf_iff_prefix.mp h))
    · next h => rw [Option.map_eq_none_iff,ih,or_iff_right (mt List.isPrefixOf_iff_prefix.mpr h)]

lemma mem_cut {s sep u v : Bytes} (h : cut s sep = some (u,v)) {x : UInt8} (hx : x ∈ v) : x ∈ s := by
  rw [eq_of_cut h]
  exact List.mem_append_right _ hx

lemma infix_of_mem_splitN {s sep l : Bytes} {n : ℕ} (h : l ∈ splitN s sep n) : l <:+: s := by
  induction s,n using splitN.induct sep with
  | case1 s => cases h
  | case2 s =>
    obtain rfl := List.mem_singleton.mp h
    exact List.infix_refl l
  | case3 s n front rest hcut ih =>
    rw [splitN,hcut] at h
    have hs := eq_of_cut hcut
    rcases List.mem_cons.mp h with rfl | h
    · exact ⟨[],sep ++ rest,by rw [hs]; simp⟩
    · exact (ih h).trans ⟨front ++ sep,[],by rw [hs]; simp⟩
  | case4 s n hcut =>
    rw [splitN,hcut] at h
    obtain rfl := List.mem_singleton.mp h
    exact List.infix_refl l

/-- A one-byte separator that the front part does not have cuts right after it. -/
lemma cut_append_cons {s : Bytes} {b : UInt8} (h : b ∉ s) (t : Bytes) :
    cut (s ++ b :: t) [b] = some (s,t) := by
  induction s with
  | nil => simp [cut,hasPrefix]
  | cons c s ih =>
    rw [List.mem_cons,not_or] at h
    simp [cut,hasPrefix,h.1,ih h.2]

/-- A separator whose first byte the front part does not have cuts at its first byte. -/
lemma cut_append_word {s : Bytes} {b : UInt8} (h : b ∉ s) (w t : Bytes) :
    cut (s ++ b :: (w ++ t)) (b :: w) = some (s,t) := by
  induction s with
  | nil =>
    have hp : hasPrefix (b :: (w ++ t)) (b :: w) = true := by simp [hasPrefix]
    rw [List.nil_append,cut,if_pos hp]
    simp
  | cons c s ih =>
    rw [List.mem_cons,not_or] at h
    simp [cut,hasPrefix,h.1,ih h.2]

lemma cut_eq_none_of_notMem {s : Bytes} {b : UInt8} (h : b ∉ s) : cut s [b] = none := by
  induction s with
  | nil => rfl
  | cons c s ih =>
    rw [List.mem_cons,not_or] at h
    simp [cut,hasPrefix,h.1,ih h.2]

lemma mem_of_mem_splitOn {s l : Bytes} {sep x : UInt8} (hl : l ∈ s.splitOn sep) (hx : x ∈ l) :
    x ∈ s := by
  have hs : [sep].intercalate (s.splitOn sep) = s := List.intercalate_splitOn sep
  rw [← hs]
  generalize s.splitOn sep = ls at hl
  induction ls with
  | nil => simp at hl
  | cons k ls ih =>
    cases ls with
    | nil =>
      obtain rfl := List.mem_singleton.mp hl
      simpa using hx
    | cons k' ls =>
      rw [List.intercalate_cons_cons,List.mem_append,List.mem_append]
      rcases List.mem_cons.mp hl with rfl | hl
      · exact .inl (.inl hx)
      · exact .inr (ih hl)

/-- The pieces of a longer text: all but the last one stay, and that one may grow. -/
lemma splitOn_append (s t : Bytes) (sep : UInt8) : ∃ front last x rest,
    s.splitOn sep = front ++ [last] ∧ (s ++ t).splitOn sep = front ++ (last ++ x) :: rest := by
  induction s with
  | nil =>
    obtain ⟨x,rest,hx⟩ := List.exists_cons_of_ne_nil (List.splitOn_ne_nil sep t)
    exact ⟨[],[],x,rest,rfl,hx⟩
  | cons b s ih =>
    obtain ⟨front,last,x,rest,hs,hst⟩ := ih
    rw [List.cons_append,List.splitOn_cons_eq_if_modifyHead,List.splitOn_cons_eq_if_modifyHead,hs,hst]
    split
    · exact ⟨[] :: front,last,x,rest,rfl,rfl⟩
    · cases front with
      | nil => exact ⟨[],b :: last,x,rest,rfl,rfl⟩
      | cons l front => exact ⟨(b :: l) :: front,last,x,rest,rfl,rfl⟩

section Replace
variable {old new : Bytes}

lemma mem_replaceFrom {k : ℕ} {s : Bytes} {x : UInt8} (h : x ∈ replaceFrom old new k s) : x ∈ s ∨ x ∈ new := by
  induction s generalizing k with
  | nil => cases k <;> exact absurd h List.not_mem_nil
  | cons b s ih =>
    cases k with
    | succ k => exact (ih h).imp_left (List.mem_cons_of_mem b)
    | zero =>
      rw [replaceFrom] at h
      split at h
      · rcases List.mem_append.mp h with hnew | hold
        · exact .inr hnew
        · exact (ih hold).imp_left (List.mem_cons_of_mem b)
      · rcases List.mem_cons.mp h with rfl | hold
        · exact .inl List.mem_cons_self
        · exact (ih hold).imp_left (List.mem_cons_of_mem b)

lemma replaceAll_unmatched {b : UInt8} {s : Bytes} (h : hasPrefix (b :: s) old = false) :
    replaceAll (b :: s) old new = b :: replaceAll s old new := by
  rw [replaceAll,replaceFrom,h]
  rfl

/-- A letter that what is replaced does not begin with stays as it is. -/
lemma replaceAll_cons {a b : UInt8} (h : b ≠ a) (s : Bytes) :
    replaceAll (b :: s) (a :: old) new = b :: replaceAll s (a :: old) new := by
  refine replaceAll_unmatched ?_
  change (a == b && old.isPrefixOf s) = false
  rw [beq_eq_false_iff_ne.mpr h.symm,Bool.false_and]

/-- A single letter is replaced wherever it stands. -/
lemma replaceAll_letter (s : Bytes) (a : UInt8) :
    replaceAll s [a] new = s.flatMap fun b => if b = a then new else [b] := by
  induction s with
  | nil => rfl
  | cons b s ih =>
    rw [List.flatMap_cons,← ih]
    by_cases hb : b = a
    · have hp : hasPrefix (b :: s) [a] = true := by
        rw [hasPrefix,List.isPrefixOf_cons_cons,beq_iff_eq.mpr hb.symm]
        rfl
      rw [if_pos hb,replaceAll,replaceFrom,hp]
      rfl
    · rw [if_neg hb,replaceAll_cons hb]
      rfl

variable {e : UInt8}

lemma hasPrefix_append_cons (he : e ∉ old) (s t : Bytes) : hasPrefix (s ++ e :: t) old = hasPrefix s old := by
  refine Bool.eq_iff_iff.mpr (List.isPrefixOf_iff_prefix.trans (Iff.trans ?_ List.isPrefixOf_iff_prefix.symm))
  constructor
  · rintro ⟨g,hg⟩
    rcases append_eq_append_cons hg with ⟨r,rfl,-⟩ | ⟨r,rfl,-⟩
    · simp at he
    · exact List.prefix_append old r
  · exact fun h => h.trans (List.prefix_append s (e :: t))

/-- A letter that is not in what is replaced keeps what is before it from what is after it, also where a match is
still passed over. -/
lemma replaceFrom_append_cons (he : e ∉ old) (hold : old ≠ []) {s : Bytes} (t : Bytes) {k : ℕ} (hk : k ≤ s.length) :
    replaceFrom old new k (s ++ e :: t) = replaceFrom old new k s ++ e :: replaceAll t old new := by
  induction s generalizing k with
  | nil =>
    obtain rfl : k = 0 := Nat.le_zero.mp hk
    obtain ⟨a,old,rfl⟩ := List.exists_cons_of_ne_nil hold
    exact replaceAll_cons (fun h => he (List.mem_cons.mpr (.inl h))) t
  | cons b s ih =>
    cases k with
    | succ k => exact ih (Nat.le_of_succ_le_succ hk)
    | zero =>
      rw [List.cons_append,replaceFrom,replaceFrom,← List.cons_append,hasPrefix_append_cons he]
      split
      · next hmatch =>
        have hlen : old.length - 1 ≤ s.length := by
          have hle := (List.isPrefixOf_iff_prefix.mp hmatch).length_le
          rw [List.length_cons] at hle
          omega
        rw [List.append_assoc,ih hlen]
      · rw [List.cons_append,ih (Nat.zero_le _)]

theorem replaceAll_append_cons (he : e ∉ old) (hold : old ≠ []) (s t : Bytes) :
    replaceAll (s ++ e :: t) old new = replaceAll s old new ++ e :: replaceAll t old new :=
  replaceFrom_append_cons he hold t (Nat.zero_le _)

end Replace

example : cut (lit "a: b: c") (lit ": ") = some (lit "a",lit "b: c") := by decide
example : replaceAll (lit "x````y") (lit "```") (lit "` ``") = lit "x` ```y" := by decide

end Bytes
