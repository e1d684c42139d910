import Cadoo.Lib.Occurrences

/-! A block between two marks that is put into a text and found again by the first begin and the first end mark,
wherever they come from: what comes of splicing into a text again and again. -/
namespace Splice
open Bytes

/-- The white space trimmed next to the block. -/
def blank (b : UInt8) : Bool := b == 32 || b == 10 || b == 9

/-- Two marks on lines of their own, and the title below the first. -/
structure Marks where
  opens : Bytes
  closes : Bytes
  title : Bytes
  opens_delimited : Delimited opens 60 62
  closes_delimited : Delimited closes 60 62
  opens_line : newline ∉ opens
  closes_line : newline ∉ closes
  opens_title : occurrences opens title = 0
  closes_title : occurrences closes title = 0
  opens_closes : occurrences opens closes = 0
  closes_opens : occurrences closes opens = 0

variable (M : Marks)

/-- The inside of the block. -/
def inner (sec : Bytes) : Bytes := M.title ++ newline :: (sec ++ [newline])

def block (sec : Bytes) : Bytes := M.opens ++ inner M sec ++ M.closes

/-- The user's text with the gap before the block. -/
def padded (u : Bytes) : Bytes := if u ≠ [] then u ++ lit "\n\n" else []

/-- What follows the block, with the gap after it. -/
def follow (t : Bytes) : Bytes := if t ≠ [] then lit "\n\n" ++ t else []

def join (u sec tail : Bytes) : Bytes := padded u ++ block M sec ++ follow (tail.dropWhile blank)

/-- The block between the marks of a text is replaced, or one is appended. -/
def splice (original sec : Bytes) : Bytes :=
  match cut original M.opens,cut original M.closes with
  | some (head,_),some (upTo,tail) =>
    if head.length < upTo.length then join M (head.rdropWhile blank) sec tail
    else join M (original.rdropWhile blank) sec []
  | _,_ => join M (original.rdropWhile blank) sec []

/-- A text without a mark in it. -/
def Unmarked (s : Bytes) : Prop := ¬ M.opens <:+: s ∧ ¬ M.closes <:+: s

instance (s : Bytes) : Decidable (Unmarked M s) := inferInstanceAs (Decidable (_ ∧ _))

/-- The inside of a well-formed block: without a mark, or what would be written there. -/
def WellFormed (sec m : Bytes) : Prop := Unmarked M m ∨ m = inner M sec

/-- Everything outside one well-formed block, or everything, stands around the new one; only blanks next to the block
may have changed. -/
def Keeps (original sec result : Bytes) : Prop :=
  ∃ u mid v front back, original = u ++ mid ++ v ∧
    (mid = [] ∨ ∃ m, mid = M.opens ++ m ++ M.closes ∧ WellFormed M sec m) ∧
    result = front ++ block M sec ++ back ∧
    front.rdropWhile blank = u.rdropWhile blank ∧ back.dropWhile blank = v.dropWhile blank

/-- A text with no mark, or whose first begin and first end mark are around a well-formed block. -/
def Spliceable (original sec : Bytes) : Prop :=
  Unmarked M original ∨ ∃ u m v, original = u ++ M.opens ++ m ++ M.closes ++ v ∧ Unmarked M u ∧ WellFormed M sec m

section Blanks
variable {w : Bytes} (h : Delimited w 60 62)
include h

lemma occurrences_rdropWhile (s : Bytes) : occurrences w (s.rdropWhile blank) = occurrences w s := by
  have hb : (62 : UInt8) ∉ s.rtakeWhile blank := fun hin => absurd (List.mem_rtakeWhile_imp hin) (by decide)
  rw [← h.occurrences_behind (s.rdropWhile blank) hb,List.rdropWhile_append_rtakeWhile]

lemma occurrences_dropWhile (s : Bytes) : occurrences w (s.dropWhile blank) = occurrences w s := by
  have hb : (60 : UInt8) ∉ s.takeWhile blank := fun hin => absurd (List.mem_takeWhile_imp hin) (by decide)
  rw [← h.opens.occurrences_before hb (s.dropWhile blank),List.takeWhile_append_dropWhile]

lemma rdropWhile_closed (x y : Bytes) : (x ++ w ++ y).rdropWhile blank = x ++ w ++ y.rdropWhile blank := by
  induction y using List.reverseRecOn with
  | nil =>
    obtain ⟨m,hm⟩ := h.shape
    have hshape : x ++ w = (x ++ 60 :: m) ++ [62] := by simp [hm]
    rw [List.append_nil,hshape,List.rdropWhile_concat_neg _ _ _ (by decide),List.rdropWhile_nil,List.append_nil]
  | append_singleton y c ih =>
    rw [← List.append_assoc]
    by_cases hc : blank c = true
    · rw [List.rdropWhile_concat_pos _ _ _ hc,List.rdropWhile_concat_pos _ _ _ hc,ih]
    · rw [List.rdropWhile_concat_neg _ _ _ hc,List.rdropWhile_concat_neg _ _ _ hc,List.append_assoc]

lemma dropWhile_closed (x y : Bytes) : (x ++ w ++ y).dropWhile blank = x.dropWhile blank ++ w ++ y := by
  induction x with
  | nil =>
    obtain ⟨m,hm⟩ := h.shape
    rw [List.nil_append,hm,List.cons_append,List.dropWhile_cons_of_neg (by decide)]
    rfl
  | cons c x ih =>
    rw [List.cons_append,List.cons_append]
    by_cases hc : blank c = true
    · rw [List.dropWhile_cons_of_pos hc,List.dropWhile_cons_of_pos hc,ih]
    · rw [List.dropWhile_cons_of_neg hc,List.dropWhile_cons_of_neg hc]
      rfl

/-- The first place of a word is determined. -/
lemma first_place {x y x' y' : Bytes} (hx : occurrences w x = 0) (hx' : occurrences w x' = 0)
    (heq : x ++ w ++ y = x' ++ w ++ y') : x = x' ∧ y = y' := by
  have hcut := cut_opens h.opens hx y
  rw [heq,cut_opens h.opens hx'] at hcut
  exact ⟨(Prod.mk.inj (Option.some.inj hcut)).1.symm,(Prod.mk.inj (Option.some.inj hcut)).2.symm⟩

/-- A text in which a word occurs has a first place of it. -/
lemma exists_first {s : Bytes} (hs : occurrences w s ≠ 0) : ∃ x y, s = x ++ w ++ y ∧ occurrences w x = 0 := by
  cases hc : cut s w with
  | none => exact absurd ((cut_eq_none h.opens).mp hc) hs
  | some found => exact ⟨found.1,found.2,cut_eq_some h.opens hc⟩

end Blanks

section Gaps

lemma padded_injective {u u' : Bytes} (h : padded u = padded u') : u = u' := by
  unfold padded at h
  split at h
  · split at h
    · exact List.append_cancel_right h
    · exact absurd h (by simp [lit])
  · split at h
    · exact absurd h.symm (by simp [lit])
    · simp_all

lemma length_le_padded (u : Bytes) : u.length ≤ (padded u).length := by
  rw [padded]
  split
  · simp
  · simp_all

lemma rdropWhile_padded {u : Bytes} (hu : u.rdropWhile blank = u) : (padded u).rdropWhile blank = u := by
  rw [padded]
  split
  · have hgap : lit "\n\n" = [newline] ++ [newline] := by decide
    rw [hgap,← List.append_assoc,List.rdropWhile_concat_pos _ _ _ (by decide),
      List.rdropWhile_concat_pos _ _ _ (by decide),hu]
  · simp_all

lemma dropWhile_follow (t : Bytes) : (follow (t.dropWhile blank)).dropWhile blank = t.dropWhile blank := by
  rw [follow]
  split
  · have hgap : lit "\n\n" ++ t.dropWhile blank = newline :: newline :: t.dropWhile blank := rfl
    rw [hgap,List.dropWhile_cons_of_pos (by decide),List.dropWhile_cons_of_pos (by decide),List.dropWhile_idempotent]
  · simp_all

lemma length_le_follow (t : Bytes) : t.length ≤ (follow t).length := by
  rw [follow]
  split
  · simp
  · simp_all

end Gaps

section Counts
variable {w : Bytes} (h : Delimited w 60 62)
include h

lemma occurrences_padded (u : Bytes) : occurrences w (padded u) = occurrences w u := by
  rw [padded]
  split
  · exact h.occurrences_behind u (by decide)
  · simp_all

lemma occurrences_follow (t : Bytes) : occurrences w (follow t) = occurrences w t := by
  rw [follow]
  split
  · exact h.opens.occurrences_before (by decide) t
  · simp_all

variable {M} (hline : newline ∉ w) (htitle : occurrences w M.title = 0)
include hline htitle

lemma occurrences_inner (sec : Bytes) : occurrences w (inner M sec) = occurrences w sec := by
  have hlast : occurrences w (sec ++ [newline]) = occurrences w sec := by
    rw [occurrences_foreign h.opens.ne_nil hline sec []]
    rfl
  rw [inner,occurrences_foreign h.opens.ne_nil hline,htitle,hlast,Nat.zero_add]

lemma occurrences_block (sec : Bytes) : occurrences w (block M sec) =
    occurrences w M.opens + occurrences w sec + occurrences w M.closes := by
  rw [block,h.opens.occurrences_open _ M.closes_delimited.opens.head?_eq,
    h.occurrences_close M.opens_delimited.getLast?_eq,occurrences_inner h hline htitle]

/-- Occurrences in a text around a block. -/
lemma occurrences_around_block (x sec y : Bytes) : occurrences w (x ++ block M sec ++ y) = occurrences w x +
    (occurrences w M.opens + occurrences w sec + occurrences w M.closes) + occurrences w y := by
  have hopen : (block M sec).head? = some 60 := by
    rw [block,List.append_assoc,List.head?_append_of_ne_nil _ M.opens_delimited.opens.ne_nil,
      M.opens_delimited.opens.head?_eq]
  have hclose : (x ++ block M sec).getLast? = some 62 := by
    rw [block,← List.append_assoc,List.getLast?_append_of_ne_nil _ M.closes_delimited.opens.ne_nil,
      M.closes_delimited.getLast?_eq]
  rw [h.occurrences_close hclose,h.opens.occurrences_open _ hopen,occurrences_block h hline htitle]

end Counts

variable {M}

lemma closes_inner (sec : Bytes) : occurrences M.closes (inner M sec) = occurrences M.closes sec :=
  occurrences_inner M.closes_delimited M.closes_line M.closes_title sec

lemma unmarked_iff {s : Bytes} : Unmarked M s ↔ occurrences M.opens s = 0 ∧ occurrences M.closes s = 0 := by
  rw [occurrences_eq_zero M.opens_delimited.opens.ne_nil,occurrences_eq_zero M.closes_delimited.opens.ne_nil]
  rfl

/-- Blanks at the end matter to no mark. -/
lemma Unmarked.rdropWhile {s : Bytes} (h : Unmarked M s) : Unmarked M (s.rdropWhile blank) := by
  rw [unmarked_iff,occurrences_rdropWhile M.opens_delimited,occurrences_rdropWhile M.closes_delimited]
  exact unmarked_iff.mp h

section Layout

/-- A text with an end mark that no begin mark precedes. -/
def EndFirst (M : Marks) (original : Bytes) : Prop :=
  ∃ x y, original = x ++ M.closes ++ y ∧ Unmarked M x

/-- A begin mark in front of the first end mark lies wholly in front of it. -/
lemma splice_pair {u m : Bytes} (hu : occurrences M.opens u = 0) (hum : occurrences M.closes (u ++ M.opens ++ m) = 0)
    (v sec : Bytes) :
    splice M (u ++ M.opens ++ m ++ M.closes ++ v) sec = join M (u.rdropWhile blank) sec v := by
  have hcutE := cut_opens M.closes_delimited.opens hum v
  have hcutB := cut_opens M.opens_delimited.opens hu (m ++ M.closes ++ v)
  rw [splice,hcutE]
  simp only [List.append_assoc] at hcutB ⊢
  rw [hcutB]
  dsimp only
  rw [if_pos]
  have hne := List.length_pos_iff.mpr M.opens_delimited.opens.ne_nil
  rw [List.length_append,List.length_append]
  omega

lemma splice_unclosed {original : Bytes} (h : occurrences M.closes original = 0) (sec : Bytes) :
    splice M original sec = join M (original.rdropWhile blank) sec [] := by
  rw [splice,(cut_eq_none M.closes_delimited.opens).mpr h]
  cases cut original M.opens <;> rfl

lemma splice_endFirst {original : Bytes} (h : EndFirst M original) (sec : Bytes) :
    splice M original sec = join M (original.rdropWhile blank) sec [] := by
  obtain ⟨x,y,rfl,hx⟩ := h
  obtain ⟨hxb,hxe⟩ := unmarked_iff.mp hx
  rw [splice,cut_opens M.closes_delimited.opens hxe]
  cases hb : cut (x ++ M.closes ++ y) M.opens with
  | none => rfl
  | some found =>
    obtain ⟨u,v⟩ := found
    obtain ⟨ho,-⟩ := cut_eq_some M.opens_delimited.opens hb
    dsimp only
    rw [if_neg]
    intro hlt
    obtain ⟨m,rfl⟩ := M.opens_delimited.in_front M.closes_delimited ho.symm hlt
    rw [M.opens_delimited.opens.occurrences_around] at hxb
    omega

/-- Where no begin mark closes a text, counts of a mark add up. -/
lemma occurrences_opened (u m : Bytes) : occurrences M.closes (u ++ M.opens ++ m) =
    occurrences M.closes u + occurrences M.closes m := by
  have hlast : (u ++ M.opens).getLast? = some 62 := by
    rw [List.getLast?_append_of_ne_nil _ M.opens_delimited.opens.ne_nil,M.opens_delimited.getLast?_eq]
  rw [M.closes_delimited.occurrences_close hlast,
    M.closes_delimited.opens.occurrences_open _ M.opens_delimited.opens.head?_eq,M.closes_opens,Nat.add_zero]

/-- The four kinds of texts, by which mark is first. -/
theorem layout (M : Marks) (original : Bytes) : Unmarked M original ∨
    (∃ u m v, original = u ++ M.opens ++ m ++ M.closes ++ v ∧ Unmarked M u ∧ occurrences M.closes m = 0) ∨
    (∃ u v, original = u ++ M.opens ++ v ∧ occurrences M.opens u = 0 ∧ occurrences M.closes original = 0) ∨
    EndFirst M original := by
  by_cases hc : occurrences M.closes original = 0
  · by_cases ho : occurrences M.opens original = 0
    · exact .inl (unmarked_iff.mpr ⟨ho,hc⟩)
    · obtain ⟨u,v,hcut,hu⟩ := exists_first M.opens_delimited ho
      exact .inr (.inr (.inl ⟨u,v,hcut,hu,hc⟩))
  · obtain ⟨x,y,rfl,hx⟩ := exists_first M.closes_delimited hc
    by_cases ho : occurrences M.opens x = 0
    · exact .inr (.inr (.inr ⟨x,y,rfl,unmarked_iff.mpr ⟨ho,hx⟩⟩))
    · obtain ⟨u,m,rfl,hu⟩ := exists_first M.opens_delimited ho
      rw [occurrences_opened] at hx
      exact .inr (.inl ⟨u,m,y,rfl,unmarked_iff.mpr ⟨hu,by omega⟩,by omega⟩)

end Layout

section Again
variable {u sec tail : Bytes}

/-- The first end mark of a text with a block is the first one in or at the end of the block. -/
lemma join_closes {a b : Bytes} (hab : inner M sec ++ M.closes = a ++ M.closes ++ b) :
    join M u sec tail = padded u ++ M.opens ++ a ++ M.closes ++ (b ++ follow (tail.dropWhile blank)) := by
  have hrest : inner M sec ++ M.closes ++ follow (tail.dropWhile blank) =
      a ++ M.closes ++ b ++ follow (tail.dropWhile blank) := by rw [hab]
  rw [join,block]
  simp only [List.append_assoc] at hrest ⊢
  rw [hrest]

lemma occurrences_front {a : Bytes} (hu : occurrences M.closes u = 0) (ha : occurrences M.closes a = 0) :
    occurrences M.closes (padded u ++ M.opens ++ a) = 0 := by
  rw [occurrences_opened,occurrences_padded M.closes_delimited,hu,ha]

/-- Splicing into a text with no mark in front of the block replaces the inside. -/
theorem splice_join (hu : Unmarked M u) (htrim : u.rdropWhile blank = u) (hsec : occurrences M.closes sec = 0)
    (sec' : Bytes) : splice M (join M u sec tail) sec' = join M u sec' tail := by
  obtain ⟨hub,hue⟩ := unmarked_iff.mp hu
  have hinner : occurrences M.closes (inner M sec) = 0 := by
    rw [closes_inner,hsec]
  have hpadded : occurrences M.opens (padded u) = 0 := by rw [occurrences_padded M.opens_delimited,hub]
  rw [join_closes (List.append_nil _).symm,splice_pair hpadded (occurrences_front hue hinner),rdropWhile_padded htrim,
    List.nil_append,join,dropWhile_follow,join]

/-- An end mark in the section closes the block too early: what comes after it is kept as text behind the block. -/
theorem splice_grows (hu : occurrences M.closes u = 0) (hsec : occurrences M.closes sec ≠ 0) :
    splice M (join M u sec tail) sec ≠ join M u sec tail := by
  have hinner : occurrences M.closes (inner M sec) ≠ 0 := by
    rwa [closes_inner]
  obtain ⟨a,b,hab,ha⟩ := exists_first M.closes_delimited hinner
  have hab : inner M sec ++ M.closes = a ++ M.closes ++ (b ++ M.closes) := by
    rw [hab,List.append_assoc]
  have hfront := occurrences_front hu ha
  have hopens : occurrences M.opens (padded u ++ M.opens ++ a) ≠ 0 := by
    rw [M.opens_delimited.opens.occurrences_around]
    omega
  obtain ⟨hd,m,hsplit,hhd⟩ := exists_first M.opens_delimited hopens
  rw [hsplit] at hfront
  have hhd' : occurrences M.closes (hd.rdropWhile blank) = 0 := by
    rw [occurrences_rdropWhile M.closes_delimited]
    rw [occurrences_opened] at hfront
    omega
  intro hsame
  rw [join_closes (u := u) hab,hsplit,splice_pair hhd hfront,join_closes hab,← hsplit] at hsame
  have hrest := (first_place M.closes_delimited (occurrences_front hhd' ha) (occurrences_front hu ha) hsame).2
  have hlen := congrArg List.length (List.append_cancel_left hrest)
  have hle := length_le_follow ((b ++ M.closes ++ follow (tail.dropWhile blank)).dropWhile blank)
  have hpos := List.length_pos_iff.mpr M.closes_delimited.opens.ne_nil
  rw [dropWhile_closed M.closes_delimited,List.length_append,List.length_append] at hle
  rw [dropWhile_closed M.closes_delimited] at hlen
  omega

end Again

section Lost

/-- Appending to a text tells where the text ended. -/
lemma join_injective {u u' sec : Bytes} (h : join M u sec [] = join M u' sec []) : u = u' :=
  padded_injective (List.append_cancel_right (List.append_cancel_right h))

/-- After an end mark out of place every splice appends another block. -/
lemma endFirst_grows {original : Bytes} (h : EndFirst M original) (s₁ s₂ : Bytes) :
    splice M (splice M original s₁) s₂ ≠ splice M original s₂ := by
  have hagain : EndFirst M (splice M original s₁) := by
    rw [splice_endFirst h]
    obtain ⟨x,y,rfl,hx⟩ := h
    rw [rdropWhile_closed M.closes_delimited,join,padded]
    split
    · refine ⟨x,y.rdropWhile blank ++ lit "\n\n" ++ block M s₁ ++ follow ([].dropWhile blank),?_,hx⟩
      simp only [List.append_assoc]
    · next hnil =>
      have := M.closes_delimited.opens.ne_nil
      simp_all
  rw [splice_endFirst hagain,splice_endFirst h s₂]
  intro he
  have heq := join_injective he
  rw [splice_endFirst h,join,block,← List.append_assoc (padded _)] at heq
  have hlen := congrArg List.length heq
  rw [rdropWhile_closed M.closes_delimited] at hlen
  have hpad := length_le_padded (original.rdropWhile blank)
  have hpos := List.length_pos_iff.mpr M.closes_delimited.opens.ne_nil
  simp only [List.length_append] at hlen
  omega

/-- A begin mark without an end is taken for the block's own once there is a block: what followed it is lost. -/
lemma beginOnly_lost {u v : Bytes} (hu : occurrences M.opens u = 0)
    (hend : occurrences M.closes (u ++ M.opens ++ v) = 0) {s₁ : Bytes} (hs₁ : occurrences M.closes s₁ = 0)
    (s₂ : Bytes) :
    splice M (splice M (u ++ M.opens ++ v) s₁) s₂ ≠ splice M (u ++ M.opens ++ v) s₂ := by
  have hne : u ++ M.opens ++ v.rdropWhile blank ≠ [] := by
    have := M.opens_delimited.opens.ne_nil
    simp_all
  have hinner : occurrences M.closes (inner M s₁) = 0 := by
    rw [closes_inner,hs₁]
  have hold : occurrences M.closes (u ++ M.opens ++ v.rdropWhile blank) = 0 := by
    rw [← rdropWhile_closed M.opens_delimited,occurrences_rdropWhile M.closes_delimited,hend]
  -- What followed the mark is now in front of the first end mark.
  have hpair : padded (u ++ M.opens ++ v.rdropWhile blank) ++ M.opens ++ inner M s₁ =
      u ++ M.opens ++ (v.rdropWhile blank ++ lit "\n\n" ++ M.opens ++ inner M s₁) := by
    rw [padded,if_pos hne]
    simp only [List.append_assoc]
  have hfront := occurrences_front hold hinner
  rw [hpair] at hfront
  rw [splice_unclosed hend,splice_unclosed hend,rdropWhile_closed M.opens_delimited,
    join_closes (List.append_nil _).symm,hpair,splice_pair hu hfront]
  intro he
  have hlen := congrArg List.length (join_injective he)
  have hle := (List.rdropWhile_prefix blank u).length_le
  have hpos := List.length_pos_iff.mpr M.opens_delimited.opens.ne_nil
  rw [List.length_append,List.length_append] at hlen
  omega

/-- Where the block of a text is read as the one written anew, it is the one between the first two marks. -/
lemma block_unique {u m v u' v' front back sec : Bytes} (hu : Unmarked M u) (hm : occurrences M.closes m = 0)
    (hsec : occurrences M.closes sec = 0) (ho : u ++ M.opens ++ m ++ M.closes ++ v = u' ++ block M sec ++ v')
    (hres : join M (u.rdropWhile blank) sec v = front ++ block M sec ++ back)
    (hfront : front.rdropWhile blank = u'.rdropWhile blank) : m = inner M sec := by
  have hB := M.opens_delimited
  have hE := M.closes_delimited
  obtain ⟨hub,hue⟩ := unmarked_iff.mp hu
  have hinner : occurrences M.closes (inner M sec) = 0 := by
    rw [closes_inner,hsec]
  have hpadded : occurrences M.opens (padded (u.rdropWhile blank)) = 0 := by
    rw [occurrences_padded hB,occurrences_rdropWhile hB,hub]
  have hbegin : occurrences M.closes (padded (u.rdropWhile blank) ++ M.opens ++ inner M sec) = 0 :=
    occurrences_front (by rw [occurrences_rdropWhile hE,hue]) hinner
  have hstart : occurrences M.closes (u ++ M.opens ++ m) = 0 := by
    rw [occurrences_opened,hue,hm]
  rw [join_closes (List.append_nil _).symm] at hres
  by_cases hu' : occurrences M.closes u' = 0
  · have hfrontE : occurrences M.closes (front ++ M.opens ++ inner M sec) = 0 := by
      rw [occurrences_opened,hinner,← occurrences_rdropWhile hE front,hfront,occurrences_rdropWhile hE,hu']
    have hclosed : front ++ block M sec ++ back = front ++ M.opens ++ inner M sec ++ M.closes ++ back := by
      rw [block]
      simp only [List.append_assoc]
    have heq := (first_place hE hbegin hfrontE (hres.trans hclosed)).1
    have hu'b : occurrences M.opens u' = 0 := by
      rw [← occurrences_rdropWhile hB,← hfront,← List.append_cancel_right (List.append_cancel_right heq),
        occurrences_rdropWhile hB,hpadded]
    have hsame : u ++ M.opens ++ (m ++ M.closes ++ v) = u' ++ M.opens ++ (inner M sec ++ M.closes ++ v') := by
      rw [block] at ho
      simp only [List.append_assoc] at ho ⊢
      exact ho
    exact (first_place hE hm hinner (first_place hB hub hu'b hsame).2).1
  · have hfrontE : occurrences M.closes front ≠ 0 := by
      rwa [← occurrences_rdropWhile hE front,hfront,occurrences_rdropWhile hE]
    obtain ⟨x,y,rfl,hx⟩ := exists_first hE hu'
    obtain ⟨x',y',rfl,hx'⟩ := exists_first hE hfrontE
    have hassoc : ∀ p q r, p ++ M.closes ++ q ++ block M sec ++ r = p ++ M.closes ++ (q ++ block M sec ++ r) := by
      simp only [List.append_assoc,implies_true]
    have hold := (first_place hE hstart hx (ho.trans (hassoc x y v'))).1
    have hnew := (first_place hE hbegin hx' (hres.trans (hassoc x' y' back))).1
    rw [rdropWhile_closed hE,rdropWhile_closed hE] at hfront
    have hsame := (first_place hE hx' hx hfront).1
    rw [← hold,← hnew] at hsame
    exact (first_place hB hpadded hub hsame).2.symm

/-- Text that keeps what is outside of one well-formed block, where the first begin mark is closed by the first end
mark: the block is the one between them. -/
lemma Keeps.wellFormed {u m v sec : Bytes} (hu : Unmarked M u) (hm : occurrences M.closes m = 0)
    (hsec : occurrences M.closes sec = 0)
    (h : Keeps M (u ++ M.opens ++ m ++ M.closes ++ v) sec (join M (u.rdropWhile blank) sec v)) :
    WellFormed M sec m := by
  have hB := M.opens_delimited
  by_contra hbad
  have hmb : occurrences M.opens m ≠ 0 := fun hmb => hbad (.inl (unmarked_iff.mpr ⟨hmb,hm⟩))
  obtain ⟨u',mid,v',front,back,ho,hmid,hres,hfront,hback⟩ := h
  have hu' : occurrences M.opens front = occurrences M.opens u' := by
    rw [← occurrences_rdropWhile hB front,hfront,occurrences_rdropWhile hB]
  have hv' : occurrences M.opens back = occurrences M.opens v' := by
    rw [← occurrences_dropWhile hB back,hback,occurrences_dropWhile hB]
  have houtside : occurrences M.opens front + occurrences M.opens back = occurrences M.opens v := by
    have hcount := congrArg (occurrences M.opens) hres
    rw [join,occurrences_around_block hB M.opens_line M.opens_title,
      occurrences_around_block hB M.opens_line M.opens_title,occurrences_padded hB,occurrences_rdropWhile hB,
      occurrences_follow hB,occurrences_dropWhile hB,(unmarked_iff.mp hu).1] at hcount
    omega
  have hold : occurrences M.opens (u ++ M.opens ++ (m ++ M.closes ++ v)) ≥ 2 + occurrences M.opens v := by
    have h₁ := le_occurrences_append (w := M.opens) (m ++ M.closes) v
    have h₂ := le_occurrences_append (w := M.opens) m M.closes
    rw [hB.opens.occurrences_around]
    omega
  have hsplit : u ++ M.opens ++ (m ++ M.closes ++ v) = u' ++ mid ++ v' := by
    rw [← ho]
    simp only [List.append_assoc]
  rw [hsplit] at hold
  rcases hmid with rfl | ⟨m',rfl,hm' | rfl⟩
  · have := hB.occurrences_append_le u' v'
    rw [List.append_nil] at hold
    omega
  · have hlast : (m' ++ M.closes).getLast? = some 62 := by
      rw [List.getLast?_append_of_ne_nil _ M.closes_delimited.opens.ne_nil,M.closes_delimited.getLast?_eq]
    have hpair := hB.opens.occurrences_around u' (m' ++ M.closes ++ v')
    rw [hB.occurrences_close hlast,hB.opens.occurrences_open _ M.closes_delimited.opens.head?_eq,
      (unmarked_iff.mp hm').1,M.opens_closes] at hpair
    simp only [List.append_assoc] at hpair hold
    omega
  · exact hbad (.inr (block_unique hu hm hsec ho hres hfront))

end Lost

/-- What a splice makes of a text it can be repeated on. -/
lemma splice_of_spliceable {original sec : Bytes} (h : Spliceable M original sec)
    (hsec : occurrences M.closes sec = 0) : ∃ u mid v, original = u ++ mid ++ v ∧
      (mid = [] ∨ ∃ m, mid = M.opens ++ m ++ M.closes ∧ WellFormed M sec m) ∧ Unmarked M u ∧
        ∀ sec', splice M original sec' = join M (u.rdropWhile blank) sec' v := by
  rcases h with h | ⟨u,m,v,rfl,hu,hm⟩
  · exact ⟨original,[],[],by simp,.inl rfl,h,splice_unclosed (unmarked_iff.mp h).2⟩
  · refine ⟨u,M.opens ++ m ++ M.closes,v,by simp,.inr ⟨m,rfl,hm⟩,hu,?_⟩
    have hmc : occurrences M.closes m = 0 := by
      rcases hm with hm | rfl
      · exact (unmarked_iff.mp hm).2
      · rw [closes_inner,hsec]
    refine splice_pair (unmarked_iff.mp hu).1 ?_ v
    rw [occurrences_opened,(unmarked_iff.mp hu).2,hmc]

/-- Splicing twice is splicing once, and no text outside a well-formed block is lost, exactly when the text has no mark
at all or its first begin and end marks are around a well-formed block. -/
theorem splice_again_iff (original : Bytes) {s₁ s₂ : Bytes} (h₁ : occurrences M.closes s₁ = 0)
    (h₂ : occurrences M.closes s₂ = 0) :
    (splice M (splice M original s₁) s₂ = splice M original s₂ ∧ Keeps M original s₂ (splice M original s₂)) ↔
      Spliceable M original s₂ := by
  constructor
  · rintro ⟨hidem,hkeeps⟩
    rcases layout M original with hnone | ⟨u,m,v,rfl,hu,hm⟩ | ⟨u,v,rfl,hu,hend⟩ | hfirst
    · exact .inl hnone
    · have hum : occurrences M.closes (u ++ M.opens ++ m) = 0 := by
        rw [occurrences_opened,(unmarked_iff.mp hu).2,hm]
      rw [splice_pair (unmarked_iff.mp hu).1 hum] at hkeeps
      exact .inr ⟨u,m,v,rfl,hu,hkeeps.wellFormed hu hm h₂⟩
    · exact absurd hidem (beginOnly_lost hu hend h₁ s₂)
    · exact absurd hidem (endFirst_grows hfirst s₁ s₂)
  · intro h
    obtain ⟨u,mid,v,ho,hmid,hu,hsplice⟩ := splice_of_spliceable h h₂
    rw [hsplice,hsplice,splice_join hu.rdropWhile (List.rdropWhile_idempotent _ _) h₁ s₂]
    exact ⟨rfl,u,mid,v,_,_,ho,hmid,rfl,rdropWhile_padded (List.rdropWhile_idempotent _ _),dropWhile_follow v⟩

/-- With an end mark in the section, splicing it again changes the text once more. -/
theorem splice_again_ne (original : Bytes) {sec : Bytes} (hsec : occurrences M.closes sec ≠ 0) :
    splice M (splice M original sec) sec ≠ splice M original sec := by
  rcases layout M original with hnone | ⟨u,m,v,rfl,hu,hm⟩ | ⟨u,v,rfl,hu,hend⟩ | hfirst
  · have hc := (unmarked_iff.mp hnone).2
    rw [splice_unclosed hc]
    exact splice_grows (by rw [occurrences_rdropWhile M.closes_delimited,hc]) hsec
  · obtain ⟨hub,hue⟩ := unmarked_iff.mp hu
    rw [splice_pair hub (by rw [occurrences_opened,hue,hm])]
    exact splice_grows (by rw [occurrences_rdropWhile M.closes_delimited,hue]) hsec
  · rw [splice_unclosed hend]
    exact splice_grows (by rw [occurrences_rdropWhile M.closes_delimited,hend]) hsec
  · exact endFirst_grows hfirst sec sec

end Splice
