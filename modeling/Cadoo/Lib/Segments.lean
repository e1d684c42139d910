import Cadoo.Lib.Bytes

/-! Words with a separator between them, and where the first of some words in a row are found by a search for their
text. -/
namespace Segments
open Bytes

variable {b : UInt8}

/-- Words with the separator in front of each. -/
def tailed (b : UInt8) (xs : List Bytes) : Bytes := xs.flatMap (b :: ·)

/-- Words with the separator between each two. -/
def joined (b : UInt8) (xs : List Bytes) : Bytes := (tailed b xs).tail

/-- The words before the first place of some words in a row that more follow, and what follows. -/
def cutAt (ws : List Bytes) : List Bytes → Option (List Bytes × List Bytes)
  | [] => none
  | x :: xs =>
    if ws <+: x :: xs ∧ ws.length < (x :: xs).length then some ([],(x :: xs).drop ws.length)
    else (cutAt ws xs).map fun r => (x :: r.1,r.2)

lemma tailed_cons (x : Bytes) (xs : List Bytes) : tailed b (x :: xs) = b :: (x ++ tailed b xs) := List.flatMap_cons

lemma tailed_append (xs ys : List Bytes) : tailed b (xs ++ ys) = tailed b xs ++ tailed b ys := List.flatMap_append

@[simp] lemma joined_cons (x : Bytes) (xs : List Bytes) : joined b (x :: xs) = x ++ tailed b xs := by
  rw [joined,tailed_cons,List.tail_cons]

/-- Every text is words. -/
lemma exists_words (b : UInt8) (s : Bytes) : ∃ x xs, s = x ++ tailed b xs ∧ b ∉ x ∧ ∀ y ∈ xs, b ∉ y := by
  induction s with
  | nil => exact ⟨[],[],rfl,List.not_mem_nil,List.forall_mem_nil _⟩
  | cons c s ih =>
    obtain ⟨x,xs,rfl,hx,hxs⟩ := ih
    by_cases hc : c = b
    · exact ⟨[],x :: xs,by rw [hc,tailed_cons]; rfl,List.not_mem_nil,List.forall_mem_cons.mpr ⟨hx,hxs⟩⟩
    · exact ⟨c :: x,xs,rfl,List.not_mem_cons_of_ne_of_not_mem (Ne.symm hc) hx,hxs⟩

/-- A text that begins with the separator, if with anything, is words with the separator in front of each. -/
lemma exists_tailed {s : Bytes} (h : ∀ c ∈ s.head?, c = b) : ∃ xs, s = tailed b xs ∧ ∀ y ∈ xs, b ∉ y := by
  obtain ⟨x,xs,rfl,hx,hxs⟩ := exists_words b s
  cases x with
  | nil => exact ⟨xs,rfl,hxs⟩
  | cons c x =>
    rw [List.cons_append,List.head?_cons] at h
    rw [h c rfl] at hx
    exact absurd List.mem_cons_self hx

/-- Words are found where they stand first when the word they begin with is nowhere before. -/
lemma cutAt_first {w : Bytes} {ws xs more : List Bytes} (hxs : ∀ x ∈ xs, x ≠ w) (hmore : more ≠ []) :
    cutAt (w :: ws) (xs ++ w :: (ws ++ more)) = some (xs,more) := by
  induction xs with
  | nil =>
    have hpos := List.length_pos_iff.mpr hmore
    have hpre : w :: ws <+: w :: (ws ++ more) := List.prefix_append (w :: ws) more
    have hlen : (w :: ws).length < (w :: (ws ++ more)).length := by
      simp only [List.length_cons,List.length_append]
      omega
    rw [List.nil_append,cutAt,if_pos ⟨hpre,hlen⟩]
    exact congrArg (fun l => some ([],l)) (@List.drop_left _ (w :: ws) more)
  | cons x xs ih =>
    obtain ⟨hx,hxs⟩ := List.forall_mem_cons.mp hxs
    rw [List.cons_append,cutAt,if_neg fun h => hx (List.cons_prefix_cons.mp h.1).1.symm,ih hxs]
    rfl

/-- A word that is not looked for is passed. -/
lemma cutAt_cons {w x : Bytes} {ws xs : List Bytes} (h : x ≠ w) :
    cutAt (w :: ws) (x :: xs) = (cutAt (w :: ws) xs).map fun r => (x :: r.1,r.2) := by
  rw [cutAt,if_neg fun hp => h (List.cons_prefix_cons.mp hp.1).1.symm]

/-- The text of some words, and a separator after it, is at the front of the text of those words and more. -/
lemma prefix_tailed_iff {ws xs : List Bytes} (hws : ∀ w ∈ ws, b ∉ w) (hxs : ∀ x ∈ xs, b ∉ x) :
    tailed b ws ++ [b] <+: tailed b xs ↔ ws <+: xs ∧ ws.length < xs.length := by
  induction ws generalizing xs with
  | nil =>
    cases xs with
    | nil => exact iff_of_false (fun h => absurd (List.prefix_nil.mp h) (by simp)) fun h => absurd h.2 (by simp)
    | cons x xs =>
      refine iff_of_true ?_ ⟨List.nil_prefix,Nat.succ_pos _⟩
      rw [tailed_cons]
      exact List.prefix_append [b] _
  | cons w ws ih =>
    obtain ⟨hw,hws⟩ := List.forall_mem_cons.mp hws
    cases xs with
    | nil => exact iff_of_false (fun h => absurd (List.prefix_nil.mp h) (by simp)) fun h => absurd h.2 (by simp)
    | cons x xs =>
      obtain ⟨hx,hxs⟩ := List.forall_mem_cons.mp hxs
      have hopen : ∃ t, tailed b ws ++ [b] = b :: t := by
        cases ws with
        | nil => exact ⟨[],rfl⟩
        | cons v ws => exact ⟨_,by rw [tailed_cons,List.cons_append]⟩
      rw [tailed_cons,tailed_cons,List.cons_append,List.cons_prefix_cons,and_iff_right rfl,List.append_assoc,
        List.cons_prefix_cons,List.length_cons,List.length_cons,Nat.add_lt_add_iff_right,and_assoc,← ih hws hxs]
      constructor
      · rintro ⟨rest,hrest⟩
        obtain ⟨t,ht⟩ := hopen
        cases xs with
        | nil =>
          refine absurd ?_ hx
          rw [show tailed b [] = [] from rfl,List.append_nil] at hrest
          rw [← hrest,ht]
          simp
        | cons y ys =>
          rw [ht,tailed_cons,List.append_assoc,List.cons_append] at hrest
          obtain rfl := append_cons_front hw hx hrest
          exact ⟨rfl,rest,by rw [ht,tailed_cons,List.cons_append,List.append_cancel_left hrest]⟩
      · rintro ⟨rfl,hpre⟩
        exact (List.prefix_append_right_inj w).mpr hpre

/-- Nothing that begins with a letter is found in front of its first place. -/
lemma cut_front {x : Bytes} (hx : b ∉ x) (s t : Bytes) :
    cut (x ++ s) (b :: t) = (cut s (b :: t)).map fun r => (x ++ r.1,r.2) := by
  induction x with
  | nil =>
    change _ = Option.map id _
    rw [Option.map_id]
    rfl
  | cons c x ih =>
    rw [List.mem_cons,not_or] at hx
    obtain ⟨hc,hx⟩ := hx
    have hp : hasPrefix (c :: (x ++ s)) (b :: t) = false := by
      rw [hasPrefix,List.isPrefixOf_cons_cons,beq_eq_false_iff_ne.mpr hc,Bool.false_and]
    rw [List.cons_append,cut,hp,if_neg Bool.false_ne_true,ih hx,Option.map_map]
    rfl

/-- A search for the text of some words finds them where they first stand in a row. -/
theorem cut_words {ws xs : List Bytes} {x : Bytes} (hws : ∀ w ∈ ws, b ∉ w) (hx : b ∉ x) (hxs : ∀ y ∈ xs, b ∉ y) :
    cut (x ++ tailed b xs) (tailed b ws ++ [b]) =
      (cutAt ws xs).map fun r => (x ++ tailed b r.1,joined b r.2) := by
  obtain ⟨t,ht⟩ : ∃ t, tailed b ws ++ [b] = b :: t := by
    cases ws with
    | nil => exact ⟨[],rfl⟩
    | cons v ws => exact ⟨_,by rw [tailed_cons,List.cons_append]⟩
  rw [ht,cut_front hx]
  induction xs generalizing x with
  | nil => rfl
  | cons y ys ih =>
    obtain ⟨hy,hys⟩ := List.forall_mem_cons.mp hxs
    have hpre := prefix_tailed_iff hws hxs
    rw [ht,← List.isPrefixOf_iff_prefix] at hpre
    rw [cutAt,tailed_cons,cut,hasPrefix,← tailed_cons,cut_front hy]
    by_cases hfirst : ws <+: y :: ys ∧ ws.length < (y :: ys).length
    · rw [if_pos hfirst,if_pos (hpre.mpr hfirst),Option.map_some,Option.map_some]
      obtain ⟨more,hmore⟩ := hfirst.1
      have hlength := congrArg List.length hmore
      obtain ⟨m,ms,rfl⟩ := List.exists_cons_of_ne_nil (List.ne_nil_of_length_pos (by
        rw [List.length_append] at hlength
        omega) : more ≠ [])
      have hdrop : (tailed b (y :: ys)).drop (b :: t).length = m ++ tailed b ms := by
        have hsplit : tailed b (y :: ys) = (b :: t) ++ (m ++ tailed b ms) := by
          rw [← hmore,tailed_append,tailed_cons,← ht,List.append_assoc]
          rfl
        rw [hsplit,List.drop_left]
      rw [hdrop,← hmore,List.drop_left,joined_cons]
      rfl
    · have hfun : (fun r : List Bytes × List Bytes => (x ++ tailed b (y :: r.1),joined b r.2)) =
          fun r => (x ++ b :: (y ++ tailed b r.1),joined b r.2) := by
        funext r
        rw [tailed_cons]
      rw [if_neg hfirst,if_neg (mt hpre.mp hfirst),ih hy hys,Option.map_map,Option.map_map,Option.map_map]
      exact congrArg (Option.map · (cutAt ws ys)) hfun.symm

end Segments
