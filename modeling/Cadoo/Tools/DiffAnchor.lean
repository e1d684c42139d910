import Mathlib.Data.List.Chain
import Cadoo.Lib.GoInt
import Cadoo.Lib.GoMap
import Cadoo.Lib.UnifiedDiff
import Cadoo.Vcs.GitLab

/-! The lines a finding may be placed on: the ranges of added lines, read off the text of a patch. -/
namespace Tools
open Bytes GoInt Vcs GitLab UnifiedDiff

/-- One more changed line: the last range grows, or a new one starts. -/
def appendLine (ranges : List (ℤ × ℤ)) (line : ℤ) : List (ℤ × ℤ) :=
  match ranges.getLast? with
  | some r => if r.2 = wrap (line-1) then ranges.dropLast ++ [(r.1,line)] else ranges ++ [(line,line)]
  | none => [(line,line)]

def parseHunkNewStart (header : Bytes) : Option ℤ :=
  match cut header (lit "+") with
  | none => none
  | some (_,rest) => atoi (rest.takeWhile fun b => b ≠ 32 && b ≠ 44)

/-- The variables of the loop over the lines of a patch. -/
structure Scan where
  ranges : List (ℤ × ℤ) := []
  newLine : ℤ := 0
  inHunk : Bool := false

def scanLine (s : Scan) (line : Bytes) : Scan :=
  if hasPrefix line (lit "@@") then
    match parseHunkNewStart line with
    | some start => { s with newLine := start, inHunk := true }
    | none => s
  else if s.inHunk = false then s
  else if hasPrefix line (lit "\\") then s
  else if hasPrefix line (lit "+") then
    { s with ranges := appendLine s.ranges s.newLine, newLine := wrap (s.newLine+1) }
  else if hasPrefix line (lit "-") then s
  else { s with newLine := wrap (s.newLine+1) }

def changedLineRanges (patch : Bytes) : List (ℤ × ℤ) :=
  ((patch.splitOn newline).foldl scanLine {}).ranges

/-- Line 0 stands for the whole file. -/
def InChangedLines (ranges : List (ℤ × ℤ)) (line : ℤ) : Bool :=
  line = 0 || ranges.any fun r => r.1 ≤ line && line ≤ r.2

def BuildChangedMap (files : List FileChange) : GoMap Bytes (List (ℤ × ℤ)) :=
  files.foldl (fun m f => m.insert f.path (changedLineRanges f.patch)) ∅

section Ranges

/-- The lines of some ranges. -/
def Covers (ranges : List (ℤ × ℤ)) (m : ℤ) : Prop := ∃ r ∈ ranges, r.1 ≤ m ∧ m ≤ r.2

lemma inChangedLines_iff {ranges : List (ℤ × ℤ)} {m : ℤ} :
    InChangedLines ranges m = true ↔ m = 0 ∨ Covers ranges m := by
  simp [InChangedLines,Covers]

/-- What the ranges collect: they are no empty ones, they hold the lines appended, and the last one ends at the
last of these. -/
structure Collects (ns : List ℤ) (ranges : List (ℤ × ℤ)) : Prop where
  proper : ∀ r ∈ ranges, r.1 ≤ r.2
  last : ranges.getLast?.map Prod.snd = ns.getLast?
  covers : ∀ m, Covers ranges m ↔ m ∈ ns

/-- The smallest number does not come right after the largest. -/
def Unwrapped (ns : List ℤ) : Prop := ns.IsChain fun a b => a = maxInt → b ≠ minInt

lemma collects_nil : Collects [] [] where
  proper r hr := nomatch hr
  last := rfl
  covers m := by simp [Covers]

lemma covers_concat {rs : List (ℤ × ℤ)} {r : ℤ × ℤ} {m : ℤ} :
    Covers (rs ++ [r]) m ↔ Covers rs m ∨ r.1 ≤ m ∧ m ≤ r.2 := by
  simp only [Covers,List.mem_append,List.mem_singleton,or_and_right,exists_or,exists_eq_left]

/-- A new range of one line. -/
lemma Collects.start {ns : List ℤ} {ranges : List (ℤ × ℤ)} (h : Collects ns ranges) (n : ℤ) :
    Collects (ns ++ [n]) (ranges ++ [(n,n)]) where
  proper r hr := by
    rcases List.mem_append.mp hr with hr | hr
    · exact h.proper r hr
    · obtain rfl := List.mem_singleton.mp hr
      exact Int.le_refl n
  last := by simp
  covers m := by
    rw [covers_concat,h.covers,List.mem_append,List.mem_singleton]
    refine or_congr Iff.rfl ?_
    omega

/-- The last range grown by the next line. -/
lemma Collects.grow {ns : List ℤ} {rs : List (ℤ × ℤ)} {r : ℤ × ℤ} {n : ℤ} (h : Collects ns (rs ++ [r]))
    (hr : r.2 = n-1) : Collects (ns ++ [n]) (rs ++ [(r.1,n)]) where
  proper q hq := by
    have hle := h.proper r (by simp)
    rcases List.mem_append.mp hq with hq | hq
    · exact h.proper q (by simp [hq])
    · obtain rfl := List.mem_singleton.mp hq
      change r.1 ≤ n
      omega
  last := by simp
  covers m := by
    have hle := h.proper r (by simp)
    rw [covers_concat,List.mem_append,List.mem_singleton,← h.covers,covers_concat,or_assoc]
    refine or_congr Iff.rfl ?_
    omega

/-- Appending a line that does not wrap around collects it too. -/
lemma Collects.append {ns : List ℤ} {ranges : List (ℤ × ℤ)} (h : Collects ns ranges) {n : ℤ} (hn : Fits n)
    (hwrap : ns.getLast? = some maxInt → n ≠ minInt) : Collects (ns ++ [n]) (appendLine ranges n) := by
  rcases List.eq_nil_or_concat ranges with rfl | ⟨rs,r,rfl⟩
  · exact h.start n
  · rw [List.concat_eq_append] at h ⊢
    have hlast : ns.getLast? = some r.2 := by simpa using h.last.symm
    rw [appendLine,List.getLast?_append,wrap_pred hn.1 hn.2]
    simp only [List.getLast?_singleton,Option.some_or,List.dropLast_concat]
    by_cases hmin : n = minInt
    · have hmax : r.2 ≠ maxInt := fun hmax => hwrap (hmax ▸ hlast) hmin
      rw [if_pos hmin,if_neg hmax]
      exact h.start n
    · rw [if_neg hmin]
      split
      · next hadj => exact h.grow hadj
      · exact h.start n

lemma unwrapped_concat {ns : List ℤ} {n : ℤ} (h : Unwrapped (ns ++ [n])) :
    Unwrapped ns ∧ (ns.getLast? = some maxInt → n ≠ minInt) := by
  rw [Unwrapped,List.isChain_append] at h
  exact ⟨h.1,fun hl => h.2.2 maxInt hl n rfl rfl⟩

theorem collects_foldl {ns : List ℤ} (hfits : ∀ n ∈ ns, Fits n) (h : Unwrapped ns) :
    Collects ns (ns.foldl appendLine []) := by
  induction ns using List.reverseRecOn with
  | nil => exact collects_nil
  | append_singleton ns n ih =>
    obtain ⟨hns,hn⟩ := unwrapped_concat h
    rw [List.foldl_append]
    exact (ih (fun k hk => hfits k (by simp [hk])) hns).append (hfits n (by simp)) hn

lemma unwrapped_of_increasing {ns : List ℤ} (hfits : ∀ n ∈ ns, Fits n) (h : ns.Pairwise (· < ·)) :
    Unwrapped ns := by
  refine (List.Pairwise.imp_of_mem ?_ h).isChain
  intro a b ha hb hab hmax hmin
  have := (hfits a ha).1
  omega

/-- Ranges in order, with a gap between any two. -/
def Separated (ranges : List (ℤ × ℤ)) : Prop := ranges.Pairwise fun r q => r.2+1 < q.1

/-- Lines appended in order make separated ranges. -/
theorem separated_foldl {ns : List ℤ} (hfits : ∀ n ∈ ns, Fits n) (h : ns.Pairwise (· < ·)) :
    Separated (ns.foldl appendLine []) := by
  induction ns using List.reverseRecOn with
  | nil => exact List.Pairwise.nil
  | append_singleton ns n ih =>
    have hns : ∀ k ∈ ns, Fits k := fun k hk => hfits k (by simp [hk])
    obtain ⟨hinc,-,hlt⟩ := List.pairwise_append.mp h
    have hcollects := collects_foldl hns (unwrapped_of_increasing hns hinc)
    have hsep := ih hns hinc
    rw [List.foldl_append,List.foldl_cons,List.foldl_nil]
    generalize ns.foldl appendLine [] = ranges at hcollects hsep
    rcases List.eq_nil_or_concat ranges with rfl | ⟨rs,r,rfl⟩
    · exact List.pairwise_singleton _ _
    · rw [List.concat_eq_append] at hcollects hsep ⊢
      have hlast : ns.getLast? = some r.2 := by simpa using hcollects.last.symm
      have hmem := List.mem_of_getLast? hlast
      have hr : r.2 < n := hlt r.2 hmem n (by simp)
      have hle := hcollects.proper r (by simp)
      have hn := hfits n (by simp)
      have hne : n ≠ minInt := by
        have := (hns r.2 hmem).1
        omega
      obtain ⟨hrs,-,hgap⟩ := List.pairwise_append.mp hsep
      rw [appendLine,List.getLast?_append,wrap_pred hn.1 hn.2,if_neg hne]
      simp only [List.getLast?_singleton,Option.some_or,List.dropLast_concat]
      split
      · next hadj =>
        refine List.pairwise_append.mpr ⟨hrs,List.pairwise_singleton _ _,fun q hq k hk => ?_⟩
        obtain rfl := List.mem_singleton.mp hk
        exact hgap q hq r (by simp)
      · next hadj =>
        refine List.pairwise_append.mpr ⟨hsep,List.pairwise_singleton _ _,fun q hq k hk => ?_⟩
        obtain rfl := List.mem_singleton.mp hk
        change q.2+1 < n
        rcases List.mem_append.mp hq with hq | hq
        · have := hgap q hq r (by simp)
          omega
        · obtain rfl := List.mem_singleton.mp hq
          omega

end Ranges

section Scanning

/-- The start of the new range is what stands after the plus sign. -/
lemma parseHunkNewStart_header (h : Hunk) : parseHunkNewStart h.header = some (h.new.start : ℤ) := by
  have hsplit : h.header = (lit "@@ -" ++ h.old.render ++ lit " ") ++
      43 :: (h.new.render ++ (32 :: lit "@@" ++ h.heading.val)) := by
    have h₁ : lit " +" = lit " " ++ [43] := by decide
    have h₂ : lit " @@" = 32 :: lit "@@" := by decide
    simp only [Hunk.header,h₁,h₂,List.append_assoc,List.cons_append,List.nil_append]
  have hplus : 43 ∉ lit "@@ -" ++ h.old.render ++ lit " " := by
    have hold := h.old.notMem_render (b := 43) (by decide) (by decide)
    have hlit : 43 ∉ lit "@@ -" ∧ 43 ∉ lit " " := by decide
    simp only [List.mem_append,not_or]
    exact ⟨⟨hlit.1,hold⟩,hlit.2⟩
  have hstart : (h.new.render ++ (32 :: lit "@@" ++ h.heading.val)).takeWhile
      (fun b => b ≠ 32 && b ≠ 44) = natDecimal h.new.start := by
    have hdigits : ∀ b ∈ natDecimal h.new.start, (b ≠ 32 && b ≠ 44) = true := by
      intro b hb
      have hdec := isDecimal_of_mem_natDecimal hb
      have hne : b ≠ 32 ∧ b ≠ 44 := by
        constructor
        all_goals
          rintro rfl
          exact absurd hdec (by decide)
      simpa using hne
    rw [UnifiedDiff.Range.render,List.append_assoc,List.takeWhile_append_of_pos hdigits]
    split <;> simp
  have hfits : h.new.start < 9223372036854775808 := by
    have := h.new_fits
    omega
  rw [parseHunkNewStart,hsplit]
  have hcut := cut_append_cons hplus (h.new.render ++ (32 :: lit "@@" ++ h.heading.val))
  have hlit : lit "+" = [43] := by decide
  rw [hlit,hcut]
  simp only [hstart]
  exact atoi_natDecimal hfits

/-- The number a line of a patch is added under. -/
def addedNumber (s : Scan) (line : Bytes) : Option ℤ :=
  if s.inHunk && !hasPrefix line (lit "@@") && hasPrefix line (lit "+") then some s.newLine else none

def addedNumbers : Scan → List Bytes → List ℤ
  | _, [] => []
  | s, l :: ls => (addedNumber s l).toList ++ addedNumbers (scanLine s l) ls

lemma ranges_scanLine (s : Scan) (l : Bytes) :
    (scanLine s l).ranges = (addedNumber s l).toList.foldl appendLine s.ranges := by
  have hfront : hasPrefix l (lit "+") = true → hasPrefix l (lit "\\") = false := by
    cases l with
    | nil => exact fun _ => rfl
    | cons b t =>
      intro h
      have hlit : lit "+" = [43] := by decide
      rw [hasPrefix,hlit,List.isPrefixOf_iff_prefix,List.cons_prefix_cons] at h
      rw [← h.1]
      rfl
  rw [scanLine,addedNumber]
  cases h₁ : hasPrefix l (lit "@@") with
  | true =>
    rw [Bool.not_true,Bool.and_false,Bool.false_and]
    cases parseHunkNewStart l <;> rfl
  | false =>
    cases h₂ : s.inHunk with
    | false => rfl
    | true =>
      cases h₃ : hasPrefix l (lit "+") with
      | true =>
        rw [hfront h₃]
        rfl
      | false =>
        cases hasPrefix l (lit "\\") <;> cases hasPrefix l (lit "-") <;> rfl

/-- The ranges are the numbers of the added lines, appended one by one. -/
lemma ranges_foldl_scanLine (ls : List Bytes) (s : Scan) :
    (ls.foldl scanLine s).ranges = (addedNumbers s ls).foldl appendLine s.ranges := by
  induction ls generalizing s with
  | nil => rfl
  | cons l ls ih => rw [List.foldl_cons,ih,ranges_scanLine,addedNumbers,List.foldl_append]

lemma addedNumbers_append (ls ls' : List Bytes) (s : Scan) :
    addedNumbers s (ls ++ ls') = addedNumbers s ls ++ addedNumbers (ls.foldl scanLine s) ls' := by
  induction ls generalizing s with
  | nil => rfl
  | cons l ls ih => rw [List.cons_append,addedNumbers,ih,addedNumbers,List.append_assoc,List.foldl_cons]

lemma atoi_fits {t : Bytes} {n : ℤ} (h : atoi t = some n) : Fits n := by
  unfold atoi at h
  have hn := (Option.filter_eq_some_iff.mp h).2
  simpa [Fits,minInt,maxInt] using hn

/-- The counter is a machine integer. -/
lemma scanLine_fits {s : Scan} (h : Fits s.newLine) (l : Bytes) : Fits (scanLine s l).newLine := by
  rw [scanLine]
  split
  · cases hp : parseHunkNewStart l with
    | none => exact h
    | some start =>
      rw [parseHunkNewStart] at hp
      split at hp
      · cases hp
      · exact atoi_fits hp
  split
  · exact h
  split
  · exact h
  split
  · exact wrap_fits _
  split
  · exact h
  · exact wrap_fits _

lemma addedNumbers_fit (ls : List Bytes) {s : Scan} (h : Fits s.newLine) :
    ∀ n ∈ addedNumbers s ls, Fits n := by
  induction ls generalizing s with
  | nil => exact fun n hn => nomatch hn
  | cons l ls ih =>
    intro n hn
    rcases List.mem_append.mp hn with hn | hn
    · rw [addedNumber] at hn
      split at hn
      · obtain rfl := List.mem_singleton.mp hn
        exact h
      · cases hn
    · exact ih (scanLine_fits h l) n hn

/-- A patch accepts the numbers of its added lines, and line 0, unless they wrap around. -/
theorem inChangedLines_iff_mem {patch : Bytes} (h : Unwrapped (addedNumbers {} (patch.splitOn newline)))
    (m : ℤ) : InChangedLines (changedLineRanges patch) m = true ↔
      m = 0 ∨ m ∈ addedNumbers {} (patch.splitOn newline) := by
  have hfits := addedNumbers_fit (patch.splitOn newline) (s := {}) (by simp [Fits,minInt,maxInt])
  rw [inChangedLines_iff,changedLineRanges,ranges_foldl_scanLine]
  exact or_congr Iff.rfl ((collects_foldl hfits h).covers m)

end Scanning

section Patches
variable (s : Scan)

lemma scanLine_header (h : Hunk) :
    scanLine s h.header = { s with newLine := h.new.start, inHunk := true } := by
  have hat : hasPrefix h.header (lit "@@") = true := rfl
  rw [scanLine,if_pos hat,parseHunkNewStart_header]

lemma addedNumber_header (h : Hunk) : addedNumber s h.header = none := by
  have hat : hasPrefix h.header (lit "@@") = true := rfl
  rw [addedNumber,hat,Bool.not_true,Bool.and_false,Bool.false_and]
  rfl

variable {s}

/-- The body of a hunk: its added lines get their numbers, and every line of the new file is counted. -/
lemma addedNumbers_body (ls : List Line) {n : ℕ} (hin : s.inHunk = true) (hn : s.newLine = n)
    (hfit : n + ls.countP Line.inNew < 9223372036854775808) :
    addedNumbers s (ls.map Line.render) = (addedFrom n ls).map Nat.cast := by
  induction ls generalizing s n with
  | nil => rfl
  | cons l ls ih =>
    obtain ⟨rs,newLine,inHunk⟩ := s
    obtain rfl : inHunk = true := hin
    obtain rfl : newLine = n := hn
    have hnext : n+1 < 9223372036854775808 → wrap ((n : ℤ)+1) = ((n+1 : ℕ) : ℤ) := by
      intro hm
      exact wrap_of_fits (by unfold minInt; omega) (by unfold maxInt; omega)
    rw [List.map_cons,addedNumbers]
    cases l with
    | context _ | blank =>
      rw [List.countP_cons_of_pos rfl] at hfit
      exact ih rfl (hnext (by omega)) (by omega)
    | added t =>
      rw [List.countP_cons_of_pos rfl] at hfit
      exact congrArg (List.cons (n : ℤ)) (ih rfl (hnext (by omega)) (by omega))
    | removed t => exact ih rfl rfl hfit
    | noNewline t => exact ih rfl rfl hfit

lemma addedNumbers_hunks (hs : List Hunk) : addedNumbers s (hs.flatMap Hunk.lines) =
    (hs.flatMap fun h => addedFrom h.new.start h.body).map Nat.cast := by
  induction hs generalizing s with
  | nil => rfl
  | cons h hs ih =>
    have hfit : h.new.start + h.body.countP Line.inNew < 9223372036854775808 := by
      rw [h.new_size]
      exact h.new_fits
    rw [List.flatMap_cons,addedNumbers_append,ih,List.flatMap_cons,List.map_append,Hunk.lines,addedNumbers,
      addedNumber_header,scanLine_header,addedNumbers_body h.body rfl rfl hfit]
    rfl

lemma scanLine_start {l : Bytes} (h : hasPrefix l (lit "@@") = false) : scanLine {} l = {} := by
  rw [scanLine,h]
  rfl

lemma addedNumbers_start {ls : List Bytes} (h : ∀ l ∈ ls, hasPrefix l (lit "@@") = false) :
    addedNumbers {} ls = [] ∧ ls.foldl scanLine {} = {} := by
  induction ls with
  | nil => exact ⟨rfl,rfl⟩
  | cons l ls ih =>
    have hl := scanLine_start (h l List.mem_cons_self)
    rw [addedNumbers,List.foldl_cons,hl]
    exact ih fun l' hl' => h l' (List.mem_cons_of_mem l hl')

/-- The numbers of a well-formed patch are those of its added lines. -/
theorem addedNumbers_render (p : Patch) :
    addedNumbers {} (p.render.splitOn newline) = p.added.map Nat.cast := by
  have hempty : ∀ s : Scan, addedNumber s [] = none := by
    intro s
    rw [addedNumber]
    cases s.inHunk <;> rfl
  have hlast : ∀ s, addedNumbers s (if p.finalNewline then [[]] else []) = [] := by
    intro s
    split
    · rw [addedNumbers,hempty]
      rfl
    · rfl
  obtain ⟨hnone,hstart⟩ := addedNumbers_start p.preamble_no_header
  rw [p.read_render (addedNumbers {}) rfl,Patch.lines,addedNumbers_append,addedNumbers_append,hlast,hnone,hstart,
    addedNumbers_hunks,List.append_nil,List.nil_append]
  rfl

lemma fits_added (p : Patch) : ∀ n ∈ p.added.map (Nat.cast : ℕ → ℤ), Fits n := by
  intro n hn
  rw [← addedNumbers_render] at hn
  exact addedNumbers_fit _ (by simp [Fits,minInt,maxInt]) n hn

lemma increasing_added (p : Patch) : (p.added.map (Nat.cast : ℕ → ℤ)).Pairwise (· < ·) :=
  List.pairwise_map.mpr (p.added_increasing.imp fun h => by omega)

/-- The lines accepted are the added lines of the patch, and line 0. -/
theorem inChangedLines_render (p : Patch) (m : ℤ) :
    InChangedLines (changedLineRanges p.render) m = true ↔ m = 0 ∨ ∃ n ∈ p.added, m = n := by
  have hunwrapped := unwrapped_of_increasing (fits_added p) (increasing_added p)
  rw [← addedNumbers_render] at hunwrapped
  rw [inChangedLines_iff_mem hunwrapped,addedNumbers_render,List.mem_map]
  simp only [eq_comm]

/-- A well-formed patch: a line is accepted just when it is an added one, and the ranges are in order, none
empty and none next to another. -/
theorem changedLineRanges_exact (p : Patch) :
    (∀ n : ℤ, 1 ≤ n → (InChangedLines (changedLineRanges p.render) n = true ↔ ∃ k ∈ p.added, n = k)) ∧
      (∀ r ∈ changedLineRanges p.render, r.1 ≤ r.2) ∧ Separated (changedLineRanges p.render) := by
  have hranges : changedLineRanges p.render = (p.added.map Nat.cast).foldl appendLine [] := by
    rw [changedLineRanges,ranges_foldl_scanLine,addedNumbers_render]
  refine ⟨fun n hn => ?_,?_,?_⟩
  · rw [inChangedLines_render]
    exact or_iff_right (by omega)
  · rw [hranges]
    exact (collects_foldl (fits_added p) (unwrapped_of_increasing (fits_added p) (increasing_added p))).proper
  · rw [hranges]
    exact separated_foldl (fits_added p) (increasing_added p)

end Patches

end Tools
