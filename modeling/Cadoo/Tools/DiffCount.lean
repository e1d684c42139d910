import Cadoo.Tools.IndexExact

/-! Counting the added and the removed lines of a GitLab diff, and where the count agrees with the diff and with
the ranges of its added lines. -/
namespace GitLab
open Bytes GoInt Vcs UnifiedDiff Tools

def isAdded : Line → Bool
  | .added _ => true
  | _ => false

def isRemoved : Line → Bool
  | .removed _ => true
  | _ => false

/-- The lines of all hunks. -/
def hunkLines (p : Patch) : List Line := p.hunks.flatMap Hunk.body

/-- How many lines some ranges have. -/
def lineTotal (ranges : List (ℤ × ℤ)) : ℤ := ranges.foldr (fun r n => r.2-r.1+1+n) 0

/-- The counts are those of the added and the removed lines, and the ranges have as many lines as were added. -/
structure Counts (p : Patch) : Prop where
  additions : (countDiffLines p.render).1 = (hunkLines p).countP isAdded
  deletions : (countDiffLines p.render).2 = (hunkLines p).countP isRemoved
  ranges : ((countDiffLines p.render).1 : ℤ) = lineTotal (changedLineRanges p.render)

section Total

lemma lineTotal_append (rs qs : List (ℤ × ℤ)) : lineTotal (rs ++ qs) = lineTotal rs + lineTotal qs := by
  induction rs with
  | nil => exact (Int.zero_add _).symm
  | cons r rs ih =>
    change r.2-r.1+1+lineTotal (rs ++ qs) = r.2-r.1+1+lineTotal rs+lineTotal qs
    rw [ih]
    omega

/-- One more line is one line more. -/
lemma lineTotal_appendLine (ranges : List (ℤ × ℤ)) {n : ℤ} (h : 1 ≤ n) (hn : Fits n) :
    lineTotal (appendLine ranges n) = lineTotal ranges + 1 := by
  have hone : ∀ r : ℤ × ℤ, lineTotal [r] = r.2-r.1+1 := fun r => Int.add_zero _
  have hmin : n ≠ minInt := by
    unfold minInt
    omega
  rcases List.eq_nil_or_concat ranges with rfl | ⟨rs,r,rfl⟩
  · change lineTotal [(n,n)] = 1
    rw [hone]
    omega
  · rw [List.concat_eq_append,appendLine,List.getLast?_append,wrap_pred hn.1 hn.2,if_neg hmin]
    simp only [List.getLast?_singleton,Option.some_or,List.dropLast_concat]
    split
    · next hadj =>
      rw [lineTotal_append,lineTotal_append,hone,hone]
      omega
    · rw [lineTotal_append _ [(n,n)],hone]
      omega

lemma lineTotal_foldl {ns : List ℤ} (h : ∀ n ∈ ns, 1 ≤ n ∧ Fits n) (ranges : List (ℤ × ℤ)) :
    lineTotal (ns.foldl appendLine ranges) = lineTotal ranges + ns.length := by
  induction ns generalizing ranges with
  | nil => exact (Int.add_zero _).symm
  | cons n ns ih =>
    obtain ⟨hpos,hfits⟩ := h n List.mem_cons_self
    rw [List.foldl_cons,ih (fun k hk => h k (List.mem_cons_of_mem n hk)),lineTotal_appendLine ranges hpos hfits,
      List.length_cons]
    omega

lemma length_addedFrom (ls : List Line) (n : ℕ) : (addedFrom n ls).length = ls.countP isAdded := by
  induction ls generalizing n with
  | nil => rfl
  | cons l ls ih =>
    cases l with
    | added t => rw [addedFrom,List.length_cons,ih,List.countP_cons_of_pos rfl]
    | context _ | blank => exact ih (n+1)
    | removed _ | noNewline _ => exact ih n

lemma length_added (p : Patch) : p.added.length = (hunkLines p).countP isAdded := by
  rw [Patch.added,hunkLines]
  induction p.hunks with
  | nil => rfl
  | cons h hs ih => rw [List.flatMap_cons,List.length_append,ih,length_addedFrom,List.flatMap_cons,List.countP_append]

/-- The ranges have as many lines as were added. -/
theorem lineTotal_changedLineRanges (p : Patch) :
    lineTotal (changedLineRanges p.render) = (hunkLines p).countP isAdded := by
  have hpos : ∀ n ∈ p.added.map (Nat.cast : ℕ → ℤ), 1 ≤ n ∧ Fits n := by
    intro n hn
    refine ⟨?_,fits_added p n hn⟩
    obtain ⟨k,hk,rfl⟩ := List.mem_map.mp hn
    have := Patch.pos_of_mem_added hk
    omega
  rw [changedLineRanges,ranges_foldl_scanLine,addedNumbers_render,lineTotal_foldl hpos,List.length_map,length_added]
  exact Int.zero_add _

end Total

section Count

/-- The added and the removed lines that are not taken for a file header. -/
def countedAdded (l : Line) : Bool := isAdded l && !headed l
def countedRemoved (l : Line) : Bool := isRemoved l && !dashed l

lemma countLine_added (n : ℕ × ℕ) (t : Text) : countLine n (Line.added t).render =
    if hasPrefix t (lit "++") then n else (n.1+1,n.2) := by
  have hplus : hasPrefix (Line.added t).render (lit "+++") = hasPrefix t (lit "++") := rfl
  have hminus : hasPrefix (Line.added t).render (lit "---") = false := rfl
  have hone : hasPrefix (Line.added t).render (lit "+") = true := rfl
  rw [countLine,hplus,hminus,Bool.or_false,if_pos hone]

lemma countLine_removed (n : ℕ × ℕ) (t : Text) : countLine n (Line.removed t).render =
    if hasPrefix t (lit "--") then n else (n.1,n.2+1) := by
  have hplus : hasPrefix (Line.removed t).render (lit "+++") = false := rfl
  have hminus : hasPrefix (Line.removed t).render (lit "---") = hasPrefix t (lit "--") := rfl
  have hone : hasPrefix (Line.removed t).render (lit "-") = true := rfl
  have hother : ¬ hasPrefix (Line.removed t).render (lit "+") = true := Bool.false_ne_true
  rw [countLine,hplus,hminus,Bool.false_or,if_neg hother,if_pos hone]

lemma foldl_countLine (ls : List Line) (n : ℕ × ℕ) : (ls.map Line.render).foldl countLine n =
    (n.1 + ls.countP countedAdded,n.2 + ls.countP countedRemoved) := by
  induction ls generalizing n with
  | nil => rfl
  | cons l ls ih =>
    rw [List.map_cons,List.foldl_cons,ih,List.countP_cons,List.countP_cons]
    cases l with
    | context _ | blank | noNewline _ => rfl
    | added t =>
      have hadded : countedAdded (.added t) = !hasPrefix t (lit "++") := rfl
      have hremoved : countedRemoved (.added t) = false := rfl
      rw [countLine_added,hadded,hremoved]
      cases hasPrefix t (lit "++") with
      | true => simp
      | false =>
        simp
        omega
    | removed t =>
      have hadded : countedAdded (.removed t) = false := rfl
      have hremoved : countedRemoved (.removed t) = !hasPrefix t (lit "--") := rfl
      rw [countLine_removed,hadded,hremoved]
      cases hasPrefix t (lit "--") with
      | true => simp
      | false =>
        simp
        omega

lemma foldl_countLine_hunks (hs : List Hunk) (n : ℕ × ℕ) : (hs.flatMap Hunk.lines).foldl countLine n =
    (n.1 + (hs.flatMap Hunk.body).countP countedAdded,n.2 + (hs.flatMap Hunk.body).countP countedRemoved) := by
  induction hs generalizing n with
  | nil => rfl
  | cons h hs ih =>
    have hheader : countLine n h.header = n := rfl
    rw [List.flatMap_cons,List.foldl_append,Hunk.lines,List.foldl_cons,hheader,foldl_countLine,ih,List.flatMap_cons,
      List.countP_append,List.countP_append,Nat.add_assoc,Nat.add_assoc]

/-- What is counted in a diff of hunks only. -/
theorem countDiffLines_render {p : Patch} (hp : p.preamble = []) : countDiffLines p.render =
    ((hunkLines p).countP countedAdded,(hunkLines p).countP countedRemoved) := by
  have hlast : ∀ n, (if p.finalNewline then [[]] else []).foldl countLine n = n := by
    intro n
    split <;> rfl
  rw [countDiffLines,p.read_render (List.foldl countLine (0,0)) rfl,Patch.lines,hp,List.map_nil,List.nil_append,
    List.foldl_append,hlast,foldl_countLine_hunks,Nat.zero_add,Nat.zero_add]
  rfl

/-- What one kind of line leaves of another is counted for itself. -/
lemma countP_split {p q : Line → Bool} (h : ∀ l, q l = true → p l = true) (ls : List Line) :
    ls.countP p = ls.countP (fun l => p l && !q l) + ls.countP q := by
  have hboth : (fun l => p l && q l) = q := by
    funext l
    cases hq : q l with
    | false => exact Bool.and_false (p l)
    | true => rw [h l hq,Bool.and_true]
  rw [List.countP_eq_countP_filter_add ls p q,List.countP_filter,List.countP_filter,hboth,Nat.add_comm]

lemma countP_isAdded (ls : List Line) : ls.countP isAdded = ls.countP countedAdded + ls.countP headed :=
  countP_split (fun l h => by
    cases l with
    | added _ => rfl
    | context _ | blank | removed _ | noNewline _ => exact h) ls

lemma countP_isRemoved (ls : List Line) : ls.countP isRemoved = ls.countP countedRemoved + ls.countP dashed :=
  countP_split (fun l h => by
    cases l with
    | removed _ => rfl
    | context _ | blank | added _ | noNewline _ => exact h) ls

end Count

/-- A diff of hunks only is counted exactly just when no added line begins with `++` and no removed one with
`--`. -/
theorem countDiffLines_exact_iff {p : Patch} (hp : p.preamble = []) :
    Counts p ↔ ∀ l ∈ hunkLines p, headed l = false ∧ dashed l = false := by
  have hadded := countP_isAdded (hunkLines p)
  have hremoved := countP_isRemoved (hunkLines p)
  have hcount := countDiffLines_render hp
  constructor
  · intro h
    have hadditions := h.additions
    have hdeletions := h.deletions
    rw [hcount] at hadditions hdeletions
    have hnoHeaded := List.countP_eq_zero.mp (Nat.left_eq_add.mp (hadditions.trans hadded))
    have hnoDashed := List.countP_eq_zero.mp (Nat.left_eq_add.mp (hdeletions.trans hremoved))
    exact fun l hl => ⟨Bool.eq_false_iff.mpr (hnoHeaded l hl),Bool.eq_false_iff.mpr (hnoDashed l hl)⟩
  · intro h
    rw [List.countP_eq_zero.mpr fun l hl => Bool.eq_false_iff.mp (h l hl).1] at hadded
    rw [List.countP_eq_zero.mpr fun l hl => Bool.eq_false_iff.mp (h l hl).2] at hremoved
    have hadditions : (countDiffLines p.render).1 = (hunkLines p).countP isAdded := by
      rw [hcount,hadded,Nat.add_zero]
    refine ⟨hadditions,?_,?_⟩
    · rw [hcount,hremoved,Nat.add_zero]
    · rw [hadditions,lineTotal_changedLineRanges]

section Example

/-- One line replaced by another. -/
def replaceLine (old new : Text) : Patch where
  hunks := [{
    old := { start := 3 }
    new := { start := 3 }
    heading := ⟨lit " users",by decide⟩
    body := [.removed old,.added new]
    old_size := rfl
    new_size := rfl
    old_pos := by decide
    new_pos := by decide
    old_fits := by decide
    new_fits := by decide }]
  preamble_plain := no_preamble_plain
  increasing := List.pairwise_singleton _ _

/-- `-- users` for `++i;`: the diff has `--- users` and `+++i;`, and nothing is counted. -/
theorem header_like_lines_uncounted :
    let p := replaceLine ⟨lit "-- users",by decide⟩ ⟨lit "++i;",by decide⟩
    countDiffLines p.render = (0,0) ∧ (hunkLines p).countP isAdded = 1 ∧ (hunkLines p).countP isRemoved = 1 ∧
      lineTotal (changedLineRanges p.render) = 1 := by
  decide +kernel

theorem plain_lines_counted : Counts (replaceLine ⟨lit "- a",by decide⟩ ⟨lit "+ b",by decide⟩) :=
  (countDiffLines_exact_iff rfl).mpr (by decide)

end Example

end GitLab
