import Mathlib.Algebra.BigOperators.Group.List.Basic
import Cadoo.ContextEngine.Compress

/-! What packing does to the files: none is lost, they come small ones first, and the budget holds unless a file
is cut where fewer than seven tokens are left. -/
namespace ContextEngine
open Bytes GoInt Vcs

/-- A file to be packed, and the cap it is cut at, if it is. -/
abbrev Row := FileChange × Option ℤ

def packedFile (r : Row) : FileChange :=
  match r.2 with
  | none => r.1
  | some cap => { r.1 with patch := truncatePatch r.1.patch cap }

def cutPaths (rows : List Row) : List Bytes := (rows.filter fun r => r.2.isSome).map fun r => r.1.path

/-- The tokens of some files together. -/
def total (files : List FileChange) : ℕ := files.foldr (fun f n => EstimateTokens f.patch + n) 0

lemma total_cons (f : FileChange) (files : List FileChange) :
    (total (f :: files) : ℤ) = EstimateTokens f.patch + total files :=
  Int.natCast_add _ _

lemma packedFile_path (r : Row) : (packedFile r).path = r.1.path := by
  rw [packedFile]
  split <;> rfl

section Loop
variable (opts : CompressOptions)

def cutOf (budget : ℤ) (f : FileChange) : Option ℤ :=
  if (EstimateTokens f.patch : ℤ) ≤ fileCap opts budget then none else some (fileCap opts budget)

lemma packFile_exhausted {s : Packing} (h : s.budget ≤ 0) (f : FileChange) :
    packFile opts s f = { s with skipped := s.skipped ++ [f.path] } := if_pos h

lemma packFile_row {s : Packing} (h : 0 < s.budget) (f : FileChange) :
    packFile opts s f = ⟨s.budget - EstimateTokens (packedFile (f,cutOf opts s.budget f)).patch,
      s.packed ++ [packedFile (f,cutOf opts s.budget f)],
      s.truncated ++ cutPaths [(f,cutOf opts s.budget f)],s.skipped⟩ := by
  rw [packFile,if_neg (by omega),cutOf]
  split
  · rw [cutPaths]
    simp [packedFile]
  · rfl

/-- Once the budget is used up every file is dropped. -/
lemma foldl_exhausted (fs : List FileChange) {s : Packing} (h : s.budget ≤ 0) :
    fs.foldl (packFile opts) s = { s with skipped := s.skipped ++ fs.map FileChange.path } := by
  induction fs generalizing s with
  | nil => simp
  | cons f fs ih =>
    rw [List.foldl_cons,packFile_exhausted opts h,ih (s := { s with skipped := s.skipped ++ [f.path] }) h]
    simp

/-- The files are taken in order up to a place, and the others are dropped for lack of budget. -/
theorem foldl_packFile (fs : List FileChange) (s : Packing) : ∃ rows dropped,
    fs = rows.map Prod.fst ++ dropped ∧
    fs.foldl (packFile opts) s = ⟨s.budget - total (rows.map packedFile),s.packed ++ rows.map packedFile,
      s.truncated ++ cutPaths rows,s.skipped ++ dropped.map FileChange.path⟩ ∧
    (dropped ≠ [] → s.budget ≤ total (rows.map packedFile)) ∧
    ∀ r ∈ rows, ∀ cap ∈ r.2, cap < EstimateTokens r.1.patch := by
  induction fs generalizing s with
  | nil => exact ⟨[],[],rfl,by simp [total,cutPaths],absurd rfl,fun r hr => nomatch hr⟩
  | cons f fs ih =>
    by_cases hb : s.budget ≤ 0
    · refine ⟨[],f :: fs,rfl,?_,fun _ => ?_,fun r hr => nomatch hr⟩
      · rw [foldl_exhausted opts _ hb]
        simp [total,cutPaths]
      · simpa [total] using hb
    · obtain ⟨rows,dropped,hfs,hfold,hlack,hcut⟩ := ih (packFile opts s f)
      rw [packFile_row opts (by omega)] at hfold hlack
      refine ⟨(f,cutOf opts s.budget f) :: rows,dropped,congrArg (List.cons f) hfs,?_,fun hd => ?_,?_⟩
      · have hpaths : cutPaths ((f,cutOf opts s.budget f) :: rows) =
            cutPaths [(f,cutOf opts s.budget f)] ++ cutPaths rows := by
          rw [cutPaths,cutPaths,cutPaths,← List.map_append,← List.filter_append,List.singleton_append]
        rw [List.foldl_cons,packFile_row opts (by omega),hfold,hpaths,List.map_cons,total_cons,Int.sub_sub]
        simp
      · have hlack := hlack hd
        rw [List.map_cons,total_cons]
        exact Int.le_add_of_sub_left_le hlack
      · intro r hr cap hcap
        rcases List.mem_cons.mp hr with rfl | hr
        · rw [cutOf] at hcap
          split at hcap
          · cases hcap
          · next hlarge =>
            obtain rfl := Option.some.inj hcap
            exact Int.not_le.mp hlarge
        · exact hcut r hr cap hcap

end Loop

section Accounting
variable (Match : Bytes → Bytes → Bool) (opts : CompressOptions) (files : List FileChange)

/-- What becomes of the files: the kept ones sorted, packed in order and the last of them dropped. -/
structure Accounts (c : Compressed) (rows : List Row) (dropped : List FileChange) : Prop where
  kept : (rows.map Prod.fst ++ dropped).Perm (files.filter (keep Match opts))
  small_first : (rows.map Prod.fst ++ dropped).Pairwise fun f g => EstimateTokens f.patch ≤ EstimateTokens g.patch
  ties : ∀ t, (rows.map Prod.fst ++ dropped).filter (fun f => EstimateTokens f.patch = t) =
    (files.filter (keep Match opts)).filter fun f => EstimateTokens f.patch = t
  packed : c.files = rows.map packedFile
  cut : ∀ r ∈ rows, ∀ cap ∈ r.2, cap < EstimateTokens r.1.patch
  truncated : c.truncated = (rows.filter fun r => r.2.isSome).map fun r => r.1.path
  skipped : c.skipped = (files.filter fun f => !keep Match opts f).map FileChange.path ++
    dropped.map FileChange.path
  lack : dropped ≠ [] → startBudget opts ≤ total c.files
  paths : (c.files.map FileChange.path ++ c.skipped).Perm (files.map FileChange.path)

/-- Every file is packed or skipped, and what it is packed as is accounted for. -/
theorem Compress_accounts : ∃ rows dropped, Accounts Match opts files (Compress Match opts files) rows dropped := by
  obtain ⟨rows,dropped,hsorted,hfold,hlack,hcut⟩ := foldl_packFile opts (sortKept Match opts files)
    { budget := startBudget opts, skipped := (files.filter fun f => !keep Match opts f).map FileChange.path }
  have hperm := List.perm_insertionSort (fun f g => EstimateTokens f.patch ≤ EstimateTokens g.patch)
    (files.filter (keep Match opts))
  have htotal : Std.Total fun f g : FileChange => EstimateTokens f.patch ≤ EstimateTokens g.patch :=
    ⟨fun f g => Nat.le_total _ _⟩
  have htrans : IsTrans FileChange fun f g => EstimateTokens f.patch ≤ EstimateTokens g.patch :=
    ⟨fun f g h => Nat.le_trans⟩
  rw [sortKept] at hsorted
  refine ⟨rows,dropped,?_⟩
  rw [Compress,hfold]
  constructor
  · rw [← hsorted]
    exact hperm
  · rw [← hsorted]
    exact List.pairwise_insertionSort _ _
  · intro t
    rw [← hsorted]
    refine filter_insertionSort fun f g hf hg => ?_
    rw [decide_eq_true_iff] at hf hg
    omega
  · rfl
  · exact hcut
  · rfl
  · rfl
  · exact hlack
  · have hpaths : (rows.map packedFile).map FileChange.path = (rows.map Prod.fst).map FileChange.path := by
      rw [List.map_map,List.map_map]
      exact List.map_congr_left fun r _ => packedFile_path r
    rw [hsorted] at hperm
    change ((rows.map packedFile).map FileChange.path ++ ((files.filter fun f => !keep Match opts f).map
      FileChange.path ++ dropped.map FileChange.path)).Perm (files.map FileChange.path)
    refine (List.perm_append_comm.append_left _).trans ?_
    rw [hpaths,← List.append_assoc,← List.map_append,← List.map_append]
    exact ((hperm.append_right _).trans (List.filter_append_perm _ files)).map FileChange.path

end Accounting

section Budget
variable (opts : CompressOptions)

/-- Along the files in order, those too large for what is left are cut at seven tokens or more. -/
def Roomy : ℤ → List FileChange → Prop
  | _, [] => True
  | budget, f :: fs => budget ≤ 0 ∨
    if (EstimateTokens f.patch : ℤ) ≤ fileCap opts budget then Roomy (budget - EstimateTokens f.patch) fs
    else 7 ≤ fileCap opts budget ∧
      Roomy (budget - EstimateTokens (truncatePatch f.patch (fileCap opts budget))) fs

/-- The budget holds, for each file and in all, and what is reported is what is used. -/
structure WithinBudget (c : Compressed) : Prop where
  all : (total c.files : ℤ) ≤ startBudget opts
  each : 0 < opts.perFileMax → ∀ f ∈ c.files, (EstimateTokens f.patch : ℤ) ≤ opts.perFileMax
  reported : c.estTokens = total c.files

variable {opts}

lemma fileCap_le (budget : ℤ) (h : 0 ≤ opts.perFileMax) :
    fileCap opts budget ≤ budget ∧ (0 < opts.perFileMax → fileCap opts budget ≤ opts.perFileMax) ∧
      (fileCap opts budget = budget ∨ 0 < opts.perFileMax ∧ fileCap opts budget = opts.perFileMax) := by
  rw [fileCap]
  split <;> omega

variable (opts) in
lemma foldl_packFile_mono (fs : List FileChange) (s : Packing) :
    (fs.foldl (packFile opts) s).budget ≤ s.budget ∧ s.packed ⊆ (fs.foldl (packFile opts) s).packed := by
  obtain ⟨rows,dropped,-,hfold,-⟩ := foldl_packFile opts fs s
  rw [hfold]
  exact ⟨Int.sub_le_self _ (Int.natCast_nonneg _),List.subset_append_left _ _⟩

lemma estimateTokens_marker : EstimateTokens marker = 7 := by decide

/-- Every packed file keeps to the cap. -/
def EachWithin (opts : CompressOptions) (files : List FileChange) : Prop :=
  0 < opts.perFileMax → ∀ f ∈ files, (EstimateTokens f.patch : ℤ) ≤ opts.perFileMax

lemma eachWithin_concat {files : List FileChange} {f : FileChange}
    (h : 0 < opts.perFileMax → (EstimateTokens f.patch : ℤ) ≤ opts.perFileMax) :
    EachWithin opts (files ++ [f]) ↔ EachWithin opts files := by
  refine forall_congr' fun hmax => ?_
  rw [List.forall_mem_append,List.forall_mem_singleton]
  exact and_iff_left (h hmax)

/-- The loop keeps to the budget and the cap just when it cuts nowhere too near the end. -/
lemma roomy_iff (hmax : 0 ≤ opts.perFileMax) (fs : List FileChange) {s : Packing} (h : 0 ≤ s.budget) :
    (0 ≤ (fs.foldl (packFile opts) s).budget ∧ EachWithin opts (fs.foldl (packFile opts) s).packed) ↔
      EachWithin opts s.packed ∧ Roomy opts s.budget fs := by
  induction fs generalizing s with
  | nil => exact ⟨fun hs => ⟨hs.2,trivial⟩,fun hs => ⟨h,hs.1⟩⟩
  | cons f fs ih =>
    by_cases hb : s.budget ≤ 0
    · rw [foldl_exhausted opts _ hb]
      exact ⟨fun hs => ⟨hs.2,.inl hb⟩,fun hs => ⟨h,hs.1⟩⟩
    · obtain ⟨hle,hlemax,hcap⟩ := fileCap_le s.budget hmax
      rw [List.foldl_cons,Roomy,or_iff_right hb,packFile,if_neg hb]
      split
      · next hfit =>
        refine (ih ?_).trans (and_congr_left' (eachWithin_concat fun hm => ?_))
        · change 0 ≤ s.budget - EstimateTokens f.patch
          omega
        · exact hfit.trans (hlemax hm)
      · next hlarge =>
        by_cases hseven : 7 ≤ fileCap opts s.budget
        · have hfit := estimateTokens_truncatePatch_le f.patch hseven
          rw [and_iff_right hseven]
          refine (ih ?_).trans (and_congr_left' (eachWithin_concat fun hm => ?_))
          · change 0 ≤ s.budget - EstimateTokens (truncatePatch f.patch (fileCap opts s.budget))
            omega
          · exact hfit.trans (hlemax hm)
        · have hcut : truncatePatch f.patch (fileCap opts s.budget) = marker :=
            truncatePatch_small (by omega) (by omega) (by omega)
          refine iff_of_false (fun hs => ?_) fun hs => hseven hs.2.1
          rw [hcut] at hs
          obtain ⟨hbudget,hpacked⟩ := foldl_packFile_mono opts fs ⟨s.budget - EstimateTokens marker,
            s.packed ++ [{ f with patch := marker }],s.truncated ++ [f.path],s.skipped⟩
          have hlast : (EstimateTokens marker : ℤ) ≤ opts.perFileMax ∨ ¬ 0 < opts.perFileMax := by
            refine (em (0 < opts.perFileMax)).imp_left fun hm => ?_
            exact hs.2 hm { f with patch := marker } (hpacked (by simp))
          have hleft : 0 ≤ s.budget - (EstimateTokens marker : ℤ) := hs.1.trans hbudget
          rw [estimateTokens_marker] at hleft hlast
          omega

variable (Match : Bytes → Bytes → Bool) (opts)

/-- With a budget given, and room for the marker wherever a file is cut, the budget holds; else it does not. -/
theorem Compress_withinBudget_iff (files : List FileChange) (hmax : 0 ≤ opts.perFileMax) :
    WithinBudget opts (Compress Match opts files) ↔
      0 < opts.maxTokens ∧ Roomy opts opts.maxTokens (sortKept Match opts files) := by
  obtain ⟨rows,dropped,-,hfold,-⟩ := foldl_packFile opts (sortKept Match opts files)
    { budget := startBudget opts, skipped := (files.filter fun f => !keep Match opts f).map FileChange.path }
  have hstart : 0 < startBudget opts := by
    rw [startBudget]
    split <;> omega
  have hroomy := roomy_iff hmax (sortKept Match opts files) (Int.le_of_lt hstart)
    (s := { budget := startBudget opts, skipped := (files.filter fun f => !keep Match opts f).map FileChange.path })
  have hnone : EachWithin opts [] := fun _ f hf => nomatch hf
  rw [and_iff_right hnone,hfold] at hroomy
  have hfiles : rows.map packedFile = (Compress Match opts files).files := by
    rw [Compress,hfold]
    rfl
  have hreported : (Compress Match opts files).estTokens =
      wrap (opts.maxTokens - (startBudget opts - total (Compress Match opts files).files)) := by
    rw [Compress,hfold]
    rfl
  change 0 ≤ startBudget opts - (total (rows.map packedFile) : ℤ) ∧ EachWithin opts (rows.map packedFile) ↔ _ at hroomy
  rw [hfiles] at hroomy
  obtain ⟨hmin,hmax⟩ := opts.maxTokens_fits
  unfold minInt at hmin
  unfold maxInt at hmax
  by_cases hpos : 0 < opts.maxTokens
  · have hbudget : startBudget opts = opts.maxTokens := if_neg (by omega)
    rw [hbudget] at hroomy hreported
    rw [and_iff_right hpos,← hroomy]
    constructor
    · exact fun h => ⟨Int.sub_nonneg_of_le (hbudget ▸ h.all),h.each⟩
    · rintro ⟨hall,heach⟩
      refine ⟨hbudget ▸ Int.le_of_sub_nonneg hall,heach,hreported.trans ?_⟩
      rw [wrap]
      omega
  · have hbudget : startBudget opts = 50000 := if_pos (by omega)
    refine iff_of_false (fun h => ?_) fun h => hpos h.1
    have hall := h.all
    have hsame := hreported.symm.trans h.reported
    rw [hbudget] at hall hsame
    rw [wrap] at hsame
    omega

/-- One added file. -/
def addedFile (patch : Bytes) : FileChange := { path := lit "a.go", status := lit "added", patch := patch }

/-- Without a budget of its own the report is off by the default one, and a cut to three tokens leaves seven. -/
theorem budget_broken :
    (Compress (fun _ _ => false) { maxTokens := 0, perFileMax := 0 } []).estTokens = -50000 ∧
      ¬ WithinBudget { maxTokens := 0, perFileMax := 0 }
        (Compress (fun _ _ => false) { maxTokens := 0, perFileMax := 0 } []) ∧
      total (Compress (fun _ _ => false) { maxTokens := 3, perFileMax := 0 }
        [addedFile (lit "@@ -0,0 +1 @@\n+x")]).files = 7 ∧
      ¬ WithinBudget { maxTokens := 3, perFileMax := 0 }
        (Compress (fun _ _ => false) { maxTokens := 3, perFileMax := 0 } [addedFile (lit "@@ -0,0 +1 @@\n+x")]) := by
  have hreport : (Compress (fun _ _ => false) { maxTokens := 0, perFileMax := 0 } []).estTokens = -50000 := by
    decide +kernel
  have htotal : total (Compress (fun _ _ => false) { maxTokens := 3, perFileMax := 0 }
      [addedFile (lit "@@ -0,0 +1 @@\n+x")]).files = 7 := by decide +kernel
  refine ⟨hreport,fun h => ?_,htotal,fun h => ?_⟩
  · have hsame := h.reported
    rw [hreport] at hsame
    omega
  · have hall := h.all
    rw [htotal] at hall
    exact absurd hall (by decide)

theorem budget_kept : WithinBudget { maxTokens := 9, perFileMax := 8 }
    (Compress (fun _ _ => false) { maxTokens := 9, perFileMax := 8 }
      [addedFile (lit "@@ -0,0 +1 @@\n+func main() { println(1) }")]) := by
  refine (Compress_withinBudget_iff { maxTokens := 9, perFileMax := 8 } (fun _ _ => false)
    [addedFile (lit "@@ -0,0 +1 @@\n+func main() { println(1) }")] (by decide)).mpr ⟨by decide,?_⟩
  have hsort : sortKept (fun _ _ => false) { maxTokens := 9, perFileMax := 8 }
      [addedFile (lit "@@ -0,0 +1 @@\n+func main() { println(1) }")] =
        [addedFile (lit "@@ -0,0 +1 @@\n+func main() { println(1) }")] := by decide +kernel
  have hlarge : ¬ (EstimateTokens (addedFile (lit "@@ -0,0 +1 @@\n+func main() { println(1) }")).patch : ℤ) ≤
      fileCap { maxTokens := 9, perFileMax := 8 } 9 := by decide +kernel
  rw [hsort,Roomy,if_neg hlarge]
  exact .inr ⟨by decide,trivial⟩

end Budget

end ContextEngine
