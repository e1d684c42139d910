import Cadoo.Lib.GoMap
import Cadoo.Lib.Sorted
import Cadoo.Lib.Utf8
import Cadoo.Vcs.Types

/-! The walkthrough of the changed files: what the model says of them, put under the fixed categories of a table. -/
namespace Describe
open Bytes Utf8 Vcs

structure WalkthroughFile where
  Path : Bytes := []
  Label : Bytes := []
  Description : Bytes := []
  deriving DecidableEq

instance : Inhabited WalkthroughFile := ⟨{}⟩

def filesIcon : Bytes :=
  lit "<img src=\"https://raw.githubusercontent.com/payamqorbanpour/cadoo/main/docs/assets/Magnifier.png\" height=\"20\" align=\"absmiddle\" alt=\"Walkthrough\">"

def labelEnhancement : Bytes := lit "Enhancement"
def labelBugFix : Bytes := lit "Bug fix"
def labelTests : Bytes := lit "Tests"
def labelDocs : Bytes := lit "Documentation"
def labelConfig : Bytes := lit "Configuration changes"
def labelFormatting : Bytes := lit "Formatting"
def labelAdditional : Bytes := lit "Additional files"

def walkthroughOrder : List Bytes :=
  [labelEnhancement,labelBugFix,labelTests,labelDocs,labelConfig,labelFormatting,labelAdditional]

/-- The label a text of the model stands for, empty when there is none. -/
def canonicalLabel (U : Tables) (raw : Bytes) : Bytes :=
  let s := toLower U (trimSpace raw)
  if s ∈ [lit "enhancement",lit "feature",lit "feat"] then labelEnhancement
  else if s ∈ [lit "bug fix",lit "bugfix",lit "fix",lit "bug"] then labelBugFix
  else if s ∈ [lit "tests",lit "test"] then labelTests
  else if s ∈ [lit "documentation",lit "docs",lit "doc"] then labelDocs
  else if s ∈ [lit "configuration changes",lit "configuration",lit "config"] then labelConfig
  else if s ∈ [lit "formatting",lit "format",lit "style"] then labelFormatting
  else if s ∈ [lit "additional files",lit "additional",lit "other"] then labelAdditional
  else []

/-- What follows the last slash of a path. -/
def displayName (path : Bytes) : Bytes := path.rtakeWhile (· != 47)

def htmlEscape (s : Bytes) : Bytes :=
  s.flatMap fun b => if b = 38 then lit "&amp;" else if b = 60 then lit "&lt;" else if b = 62 then lit "&gt;" else [b]

def statsOf (files : List FileChange) : GoMap Bytes FileChange := .ofEntries (files.map fun f => (f.path,f))

/-- The last entry for a path takes the place of those before it. -/
def descByPath (stats : GoMap Bytes FileChange) (items : List WalkthroughFile) : GoMap Bytes WalkthroughFile :=
  items.foldl (fun m w => if w.Path = [] ∨ w.Path ∉ stats then m else m.insert w.Path w) ∅

section Buckets
variable (U : Tables) (descs : GoMap Bytes WalkthroughFile)

def labelOf (path : Bytes) : Bytes :=
  let label := canonicalLabel U (descs.get path).Label
  if path ∉ descs ∨ label = [] then labelAdditional else label

def bucketsOf (files : List FileChange) : GoMap Bytes (List WalkthroughFile) :=
  files.foldl (fun m f => m.insert (labelOf U descs f.path) (m.get (labelOf U descs f.path) ++
    [⟨f.path,labelOf U descs f.path,trimSpace (descs.get f.path).Description⟩])) ∅

end Buckets

/-- `sort.Slice` by path, of rows with different paths. -/
def sortRows (rows : List WalkthroughFile) : List WalkthroughFile :=
  rows.insertionSort fun a b => less b.Path a.Path = false

def renderRow (stats : GoMap Bytes FileChange) (r : WalkthroughFile) : Bytes :=
  let f := (stats.lookup r.Path).getD { path := [] }
  let desc := if r.Description = [] then lit "—" else r.Description
  lit "<tr>\n<td>\n<strong>" ++ htmlEscape (displayName r.Path) ++ lit "</strong><br>\n<code>" ++ htmlEscape desc ++
    lit "</code>\n</td>\n<td>" ++ (lit "+" ++ natDecimal f.additions ++ lit "/-" ++ natDecimal f.deletions) ++
    lit "</td>\n</tr>\n"

def renderCategory (stats : GoMap Bytes FileChange) (label : Bytes) (rows : List WalkthroughFile) : Bytes :=
  if rows = [] then []
  else
    lit "<tr>\n<td><strong>" ++ label ++ lit "</strong></td>\n<td>\n" ++
      (lit "<details><summary>" ++ natDecimal rows.length ++ lit " files</summary>\n\n") ++ lit "<table>\n" ++
      rows.flatMap (renderRow stats) ++ lit "</table>\n\n</details>\n</td>\n</tr>\n"

def tableHead (withImage : Bool) : Bytes :=
  lit "<details><summary>" ++ (if withImage then filesIcon ++ lit " " else []) ++
    lit "<strong>File Walkthrough</strong></summary>\n\n" ++
    lit "<table>\n<thead><tr><th></th><th>Relevant files</th></tr></thead>\n<tbody>\n"

def tableFoot : Bytes := lit "</tbody>\n</table>\n\n</details>\n"

def renderWalkthrough (U : Tables) (items : List WalkthroughFile) (files : List FileChange) (withImage : Bool) :
    Bytes :=
  if files = [] then []
  else
    let stats := statsOf files
    let buckets := bucketsOf U (descByPath stats items) files
    tableHead withImage ++
      walkthroughOrder.flatMap (fun label => renderCategory stats label (sortRows (buckets.get label))) ++ tableFoot

/-- A row of the table: a file, what is said of it and how much of it has changed. -/
structure Row where
  path : Bytes
  description : Bytes
  additions : ℕ
  deletions : ℕ
  deriving DecidableEq

/-- The rows under one label, and the number displayed for them. -/
structure Category where
  label : Bytes
  count : ℕ
  rows : List Row
  deriving DecidableEq

def Row.text (r : Row) : Bytes :=
  lit "<tr>\n<td>\n<strong>" ++ htmlEscape (displayName r.path) ++ lit "</strong><br>\n<code>" ++
    htmlEscape r.description ++ lit "</code>\n</td>\n<td>" ++
    (lit "+" ++ natDecimal r.additions ++ lit "/-" ++ natDecimal r.deletions) ++ lit "</td>\n</tr>\n"

def Category.text (c : Category) : Bytes :=
  lit "<tr>\n<td><strong>" ++ c.label ++ lit "</strong></td>\n<td>\n" ++
    (lit "<details><summary>" ++ natDecimal c.count ++ lit " files</summary>\n\n") ++ lit "<table>\n" ++
    c.rows.flatMap Row.text ++ lit "</table>\n\n</details>\n</td>\n</tr>\n"

/-- The walkthrough that shows some categories. -/
def walkthroughText (withImage : Bool) (cats : List Category) : Bytes :=
  tableHead withImage ++ cats.flatMap Category.text ++ tableFoot

/-- The last entry of the model for a path. -/
def lastFor (items : List WalkthroughFile) (path : Bytes) : Option WalkthroughFile :=
  (items.filter fun w => w.Path = path).getLast?

/-- The last entry for a path, of entries that name one. -/
def lastNamed (items : List WalkthroughFile) (path : Bytes) : Option WalkthroughFile :=
  if path = [] then none else lastFor items path

def orDash (s : Bytes) : Bytes := if s = [] then lit "—" else s

/-- What is to be shown of a file, given the entry for it. -/
def rowOf (entry : Bytes → Option WalkthroughFile) (f : FileChange) : Row where
  path := f.path
  description := orDash ((entry f.path).elim [] fun w => trimSpace w.Description)
  additions := f.additions
  deletions := f.deletions

/-- Every file has its row under one of the categories, and there is no other row. -/
structure ShowsEach (entry : Bytes → Option WalkthroughFile) (files : List FileChange) (cats : List Category) :
    Prop where
  rows : (cats.flatMap Category.rows).Perm (files.map (rowOf entry))
  labels : (cats.map Category.label).Sublist walkthroughOrder
  counts : ∀ c ∈ cats, c.count = c.rows.length
  sorted : ∀ c ∈ cats, c.rows.Pairwise fun r r' => NotAfter r.path r'.path

lemma lastFor_append (items : List WalkthroughFile) (w : WalkthroughFile) (path : Bytes) :
    lastFor (items ++ [w]) path = if w.Path = path then some w else lastFor items path := by
  rw [lastFor,List.filter_append,List.filter_singleton]
  by_cases h : w.Path = path
  · rw [decide_eq_true h,if_pos h]
    exact List.getLast?_concat
  · rw [decide_eq_false h,if_neg h,cond_false,List.append_nil,lastFor]

/-- An entry is taken for a path of the changed files, the last one that names it. -/
lemma lookup_descByPath (stats : GoMap Bytes FileChange) (items : List WalkthroughFile) {path : Bytes}
    (h : path ∈ stats) : AList.lookup path (descByPath stats items) = lastNamed items path := by
  induction items using List.reverseRecOn with
  | nil =>
    rw [lastNamed]
    split
    · rfl
    · rfl
  | append_singleton items w ih =>
    rw [descByPath,List.foldl_append,← descByPath,List.foldl_cons,List.foldl_nil,lastNamed,lastFor_append]
    rw [lastNamed] at ih
    by_cases hw : w.Path = path
    · by_cases hpath : path = []
      · rw [if_pos (.inl (hw.trans hpath)),ih,if_pos hpath,if_pos hpath]
      · rw [hw,if_neg (not_or.mpr ⟨hpath,not_not.mpr h⟩),if_neg hpath,if_pos rfl,AList.lookup_insert]
    · rw [if_neg hw]
      split
      · exact ih
      · rw [AList.lookup_insert_ne (Ne.symm hw)]
        exact ih

lemma canonicalLabel_mem (U : Tables) (raw : Bytes) :
    canonicalLabel U raw = [] ∨ canonicalLabel U raw ∈ walkthroughOrder := by
  rw [canonicalLabel]
  split_ifs <;> simp [walkthroughOrder]

lemma labelOf_mem (U : Tables) (descs : GoMap Bytes WalkthroughFile) (path : Bytes) :
    labelOf U descs path ∈ walkthroughOrder := by
  rw [labelOf]
  split
  · simp [walkthroughOrder]
  · next h => exact (canonicalLabel_mem U _).resolve_left (not_or.mp h).2

lemma walkthroughOrder_nodup : walkthroughOrder.Nodup := by decide +kernel

section Rows
variable (U : Tables) (descs : GoMap Bytes WalkthroughFile) (stats : GoMap Bytes FileChange)

/-- The row of a file before it is looked up. -/
def entryOf (f : FileChange) : WalkthroughFile :=
  ⟨f.path,labelOf U descs f.path,trimSpace (descs.get f.path).Description⟩

/-- What a row shows. -/
def shownRow (r : WalkthroughFile) : Row where
  path := r.Path
  description := orDash r.Description
  additions := ((stats.lookup r.Path).getD { path := [] }).additions
  deletions := ((stats.lookup r.Path).getD { path := [] }).deletions

/-- The category of a label. -/
def categoryOf (files : List FileChange) (label : Bytes) : Category where
  label := label
  count := (sortRows ((bucketsOf U descs files).get label)).length
  rows := (sortRows ((bucketsOf U descs files).get label)).map (shownRow stats)

lemma bucketsOf_get (files : List FileChange) (label : Bytes) :
    (bucketsOf U descs files).get label = (files.filter fun f => labelOf U descs f.path = label).map (entryOf U descs) :=
  (GoMap.get_foldl_append label (fun f : FileChange => labelOf U descs f.path) (entryOf U descs) files ∅).trans
    (List.nil_append _)

lemma sortRows_perm (rows : List WalkthroughFile) : (sortRows rows).Perm rows := List.perm_insertionSort _ rows

lemma sortRows_sorted (rows : List WalkthroughFile) : (sortRows rows).Pairwise fun a b => NotAfter a.Path b.Path := by
  have htotal : Std.Total fun a b : WalkthroughFile => NotAfter a.Path b.Path :=
    ⟨fun a b => Std.Total.total a.Path b.Path⟩
  have htrans : IsTrans WalkthroughFile fun a b => NotAfter a.Path b.Path :=
    ⟨fun a b c => IsTrans.trans a.Path b.Path c.Path⟩
  exact List.pairwise_insertionSort (fun a b : WalkthroughFile => NotAfter a.Path b.Path) rows

/-- Labels without rows are passed over. -/
lemma renderCategories_eq (files : List FileChange) (labels : List Bytes) :
    labels.flatMap (fun label => renderCategory stats label (sortRows ((bucketsOf U descs files).get label))) =
      ((labels.map (categoryOf U descs stats files)).filter fun c => c.rows ≠ []).flatMap Category.text := by
  induction labels with
  | nil => rfl
  | cons label labels ih =>
    rw [List.flatMap_cons,List.map_cons,ih,renderCategory]
    split
    · next h =>
      rw [List.filter_cons_of_neg]
      · rfl
      · simp [categoryOf,h]
    · next h =>
      rw [List.filter_cons_of_pos,List.flatMap_cons]
      · rw [Category.text,categoryOf,List.flatMap_map]
        rfl
      · simp [categoryOf,h]

lemma flatMap_rows (cats : List Category) :
    (cats.filter fun c => c.rows ≠ []).flatMap Category.rows = cats.flatMap Category.rows := by
  induction cats with
  | nil => rfl
  | cons c cats ih =>
    by_cases h : c.rows = []
    · rw [List.filter_cons_of_neg (by simpa using h),List.flatMap_cons,h,ih]
      rfl
    · rw [List.filter_cons_of_pos (by simpa using h),List.flatMap_cons,List.flatMap_cons,ih]

/-- The rows of all labels are those of all files. -/
lemma rows_perm (files : List FileChange) :
    ((walkthroughOrder.map (categoryOf U descs stats files)).flatMap Category.rows).Perm
      (files.map fun f => shownRow stats (entryOf U descs f)) := by
  have hsort : ∀ label ∈ walkthroughOrder, ((categoryOf U descs stats files label).rows).Perm
      ((files.filter fun f => labelOf U descs f.path = label).map fun f => shownRow stats (entryOf U descs f)) := by
    intro label _
    rw [categoryOf,bucketsOf_get]
    have hrows := (sortRows_perm ((files.filter fun f => labelOf U descs f.path = label).map (entryOf U descs))).map
      (shownRow stats)
    rw [List.map_map] at hrows
    exact hrows
  have hcount : ∀ f ∈ files, walkthroughOrder.count (labelOf U descs f.path) = 1 := fun f _ =>
    List.count_eq_one_of_mem walkthroughOrder_nodup (labelOf_mem U descs f.path)
  have hparts := (perm_flatMap_filter (fun f : FileChange => labelOf U descs f.path) hcount).map
    fun f => shownRow stats (entryOf U descs f)
  rw [List.flatMap_map]
  refine (List.Perm.flatMap_left walkthroughOrder hsort).trans ?_
  rw [List.map_flatMap] at hparts
  exact hparts

/-- A row shows the changes of its own file. -/
lemma shownRow_entryOf {items : List WalkthroughFile} {files : List FileChange}
    (h : (files.map FileChange.path).Nodup) {f : FileChange} (hf : f ∈ files) :
    shownRow (statsOf files) (entryOf U (descByPath (statsOf files) items) f) = rowOf (lastNamed items) f := by
  have hstats : AList.lookup f.path (statsOf files) = some f := by
    refine (GoMap.lookup_ofEntries fun v w hv hw => ?_).mpr (List.mem_map.mpr ⟨f,hf,rfl⟩)
    obtain ⟨f₁,h₁,he₁⟩ := List.mem_map.mp hv
    obtain ⟨f₂,h₂,he₂⟩ := List.mem_map.mp hw
    obtain ⟨hp₁,rfl⟩ := Prod.mk.inj he₁
    obtain ⟨hp₂,rfl⟩ := Prod.mk.inj he₂
    exact List.inj_on_of_nodup_map h h₁ h₂ (hp₁.trans hp₂.symm)
  have hmem : f.path ∈ statsOf files := AList.lookup_isSome.mp (by rw [hstats]; rfl)
  have hdesc : trimSpace ((descByPath (statsOf files) items).get f.path).Description =
      (lastNamed items f.path).elim [] fun w => trimSpace w.Description := by
    rw [GoMap.get,lookup_descByPath _ _ hmem]
    cases lastNamed items f.path with
    | none => rfl
    | some w => rfl
  rw [shownRow,entryOf,rowOf,hdesc,hstats]
  rfl

end Rows

/-- Every changed file has one row, under one category, with its own counts and the last description for it. -/
theorem renderWalkthrough_shows (U : Tables) (items : List WalkthroughFile) {files : List FileChange}
    (hne : files ≠ []) (h : (files.map FileChange.path).Nodup) (withImage : Bool) : ∃ cats,
    renderWalkthrough U items files withImage = walkthroughText withImage cats ∧
      ShowsEach (lastNamed items) files cats := by
  let descs := descByPath (statsOf files) items
  let all := walkthroughOrder.map (categoryOf U descs (statsOf files) files)
  refine ⟨all.filter fun c => c.rows ≠ [],?_,?_,?_,?_,?_⟩
  · rw [renderWalkthrough,if_neg hne,walkthroughText,← renderCategories_eq]
  · rw [flatMap_rows]
    refine (rows_perm U descs (statsOf files) files).trans ?_
    rw [List.map_congr_left fun f hf => shownRow_entryOf U h hf]
  · have hlabels : all.map Category.label = walkthroughOrder := by
      rw [List.map_map]
      exact List.map_id _
    rw [← hlabels]
    exact List.filter_sublist.map _
  · intro c hc
    obtain ⟨label,-,rfl⟩ := List.mem_map.mp (List.mem_of_mem_filter hc)
    exact (List.length_map _).symm
  · intro c hc
    obtain ⟨label,-,rfl⟩ := List.mem_map.mp (List.mem_of_mem_filter hc)
    exact List.pairwise_map.mpr (sortRows_sorted _)

theorem twoFiles_shown :
    let files : List FileChange := [{ path := lit "src/b.go", additions := 3, deletions := 1 },{ path := lit "a_test.go" }]
    let items : List WalkthroughFile := [⟨lit "src/b.go",lit "feat",lit "Old"⟩,⟨lit "c.go",lit "fix",lit "Not there"⟩,
      ⟨lit "src/b.go",lit "Bug",lit " Guard the index "⟩]
    ∃ cats, renderWalkthrough Tables.plain items files true = walkthroughText true cats ∧
      ShowsEach (lastNamed items) files cats :=
  renderWalkthrough_shows Tables.plain _ (by simp) (by decide +kernel) true

/-- A row of the categories stands in the text. -/
lemma row_within {withImage : Bool} {cats : List Category} {r : Row} (h : r ∈ cats.flatMap Category.rows) :
    r.text <:+: walkthroughText withImage cats := by
  obtain ⟨c,hc,hr⟩ := List.mem_flatMap.mp h
  have hrow : r.text <:+: c.text := by
    have hrows : r.text <:+: c.rows.flatMap Row.text := by
      rw [List.flatMap_def]
      exact List.infix_of_mem_flatten (List.mem_map_of_mem hr)
    rw [Category.text,List.append_assoc _ (c.rows.flatMap Row.text)]
    exact (hrows.trans (List.prefix_append _ _).isInfix).trans (List.suffix_append _ _).isInfix
  have hcats : c.text <:+: cats.flatMap Category.text := by
    rw [List.flatMap_def]
    exact List.infix_of_mem_flatten (List.mem_map_of_mem hc)
  rw [walkthroughText,List.append_assoc]
  exact ((hrow.trans hcats).trans (List.prefix_append _ _).isInfix).trans (List.suffix_append _ _).isInfix

/-- What the model says of a file without a path is not shown. -/
theorem unnamed_file_undescribed :
    let files : List FileChange := [{ path := [], additions := 1 }]
    let items : List WalkthroughFile := [{ Label := lit "tests", Description := lit "x" }]
    ¬ ∃ cats, renderWalkthrough Tables.plain items files false = walkthroughText false cats ∧
      ShowsEach (lastFor items) files cats := by
  intro files items
  rintro ⟨cats,htext,hshows⟩
  have hrow : rowOf (lastFor items) { path := [], additions := 1 } ∈ cats.flatMap Category.rows :=
    hshows.rows.mem_iff.mpr (List.mem_singleton.mpr rfl)
  have hwithin := @row_within false cats _ hrow
  rw [← htext] at hwithin
  revert hwithin
  decide +kernel

end Describe
