import Mathlib.Data.List.Basic

/-! A list read page by page from a server that numbers its pages: a loop that takes item after item, may stop at
any of them, and goes on to the page it is told comes next. -/
namespace Paging

/-- Some items, and the number of the next page, which is 0 on the last one. -/
structure NumberedPage (α : Type) where
  items : List α
  nextPage : ℕ

section Loop
variable {α S E R : Type} (list : ℕ → Except E (NumberedPage α)) (one : S → α → Except R S) (fail : E → R)
  (done : S → R)

/-- The loop from a page on; an error of `one` stops it with a result, and `none` stands for a loop that has not
ended after a number of pages. -/
def loop : ℕ → ℕ → S → Option R
  | 0, _, _ => none
  | fuel+1, page, s =>
    match list page with
    | .error e => some (fail e)
    | .ok p =>
      match p.items.foldlM one s with
      | .error r => some r
      | .ok s => if p.nextPage = 0 then some (done s) else loop fuel p.nextPage s

/-- What the loop ends with, over all items at once. -/
def outcome (items : List α) (s : S) : R :=
  match items.foldlM one s with
  | .error r => r
  | .ok s => done s

/-- A loop that takes every item. -/
lemma outcome_ok (f : S → α → S) (items : List α) (s : S) :
    outcome (fun s a => .ok (f s a)) done items s = done (items.foldl f s) := by
  induction items generalizing s with
  | nil => rfl
  | cons a as ih => exact ih (f s a)

end Loop

/-- A page of a list that has been split into pages; the first one has the numbers 0 and 1. -/
def servePage {α : Type} (pages : List (List α)) (page : ℕ) : NumberedPage α :=
  ⟨(pages[page-1]?).getD [],if page-1+1 < pages.length then page-1+2 else 0⟩

section Served
variable {α S E R : Type} (one : S → α → Except R S) (fail : E → R) (done : S → R) (pages : List (List α))

/-- On pages of a list the loop ends, and it does not matter how the list was split. -/
theorem loop_servePage (fuel page : ℕ) (hpage : page-1 < pages.length) (hfuel : pages.length - (page-1) ≤ fuel)
    (s : S) : loop (fun page => .ok (servePage pages page)) one fail done fuel page s =
      some (outcome one done (pages.drop (page-1)).flatten s) := by
  induction fuel generalizing page s with
  | zero => omega
  | succ fuel ih =>
    have hdrop : (pages.drop (page-1)).flatten = (servePage pages page).items ++ (pages.drop (page-1+1)).flatten := by
      rw [List.drop_eq_getElem_cons hpage,List.flatten_cons,servePage,List.getElem?_eq_getElem hpage]
      rfl
    rw [loop,outcome,hdrop,List.foldlM_append]
    dsimp only
    cases (servePage pages page).items.foldlM one s with
    | error r => rfl
    | ok s =>
      by_cases hnext : page-1+1 < pages.length
      · have hpos : (servePage pages page).nextPage = page-1+2 := if_pos hnext
        simp only [hpos]
        exact ih (page-1+2) hnext (by omega) s
      · have hzero : (servePage pages page).nextPage = 0 := if_neg hnext
        have hend : pages.drop (page-1+1) = [] := List.drop_eq_nil_iff.mpr (by omega)
        simp only [hzero,hend]
        rfl

variable {pages}

/-- From the first page on the loop takes every item. -/
theorem loop_first (hpages : pages ≠ []) {fuel page : ℕ} (hpage : page ≤ 1) (hfuel : pages.length ≤ fuel) (s : S) :
    loop (fun page => .ok (servePage pages page)) one fail done fuel page s =
      some (outcome one done pages.flatten s) := by
  have hlength := List.length_pos_of_ne_nil hpages
  have hzero : page-1 = 0 := Nat.sub_eq_zero_of_le hpage
  have h := loop_servePage one fail done pages fuel page (by omega) (by omega) s
  rw [hzero,List.drop_zero] at h
  exact h

end Served

/-- Pages of which some items are passed over. -/
lemma servePage_filterMap {α β : Type} (f : α → Option β) (pages : List (List α)) (page : ℕ) :
    (⟨(servePage pages page).items.filterMap f,(servePage pages page).nextPage⟩ : NumberedPage β) =
      servePage (pages.map (List.filterMap f)) page := by
  rw [servePage,servePage,List.getElem?_map,List.length_map]
  cases pages[page-1]? <;> rfl

end Paging
