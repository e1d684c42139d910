import Cadoo.Lib.UnifiedDiff
import Cadoo.Vcs.GitLab

/-! What the GitLab adapter's index has of a well-formed diff. Added lines whose text begins with `++` are
taken for a file header, so the numbers after them fall behind; a last newline adds one line too many. -/
namespace GitLab
open Bytes Utf8 Vcs UnifiedDiff

section Header

lemma rangeStart_render (r : UnifiedDiff.Range) {c : UInt8}
    (h : r.start < 9223372036854775808) : rangeStart [c] (c :: r.render) = some (r.start : ℤ) := by
  have htrim : trimPrefix (c :: r.render) [c] = r.render := by simp [trimPrefix,hasPrefix]
  have hcomma : lit "," = [44] := by decide
  have hno : (44 : UInt8) ∉ natDecimal r.start := fun hm =>
    absurd (isDecimal_of_mem_natDecimal hm) (by decide)
  rw [rangeStart,htrim,hcomma,UnifiedDiff.Range.render]
  cases r.count with
  | none =>
    rw [List.append_nil,cut_eq_none_of_notMem hno]
    exact atoi_natDecimal h
  | some n =>
    rw [cut_append_cons hno]
    exact atoi_natDecimal h

lemma visible_render (r : UnifiedDiff.Range) {c : UInt8} (hc : 32 < c ∧ c < 128) :
    ∀ b ∈ c :: r.render, 32 < b ∧ b < 128 := by
  have hall : ∀ d : UInt8, isDecimal d = true ∨ d = 44 → 32 < d ∧ d < 128 := forall_byte (by decide +kernel)
  intro b hb
  rcases List.mem_cons.mp hb with rfl | hb
  · exact hc
  · exact hall b (r.mem_render hb)

/-- The two starts are read from a header, whatever its heading says. -/
lemma parseHunkHeader_header (h : Hunk) :
    parseHunkHeader h.header = some ((h.old.start : ℤ),(h.new.start : ℤ)) := by
  have hsplit : trimPrefix h.header (lit "@@") = 32 :: ((45 :: h.old.render) ++ 32 ::
      ((43 :: h.new.render) ++ [32])) ++ 64 :: ([64] ++ h.heading.val) := by
    have h₁ : lit "@@ -" = [64,64,32,45] := by decide
    have h₂ : lit " +" = [32,43] := by decide
    have h₃ : lit " @@" = [32,64,64] := by decide
    have h₄ : lit "@@" = [64,64] := by decide
    simp [trimPrefix,hasPrefix,Hunk.header,h₁,h₂,h₃,h₄]
  have hat : (64 : UInt8) ∉ 32 :: ((45 :: h.old.render) ++ 32 :: ((43 :: h.new.render) ++ [32])) := by
    have hold := h.old.notMem_render (b := 64) (by decide) (by decide)
    have hnew := h.new.notMem_render (b := 64) (by decide) (by decide)
    simp [hold,hnew]
  have hfit : h.old.start < 9223372036854775808 ∧ h.new.start < 9223372036854775808 := by
    have := h.old_fits
    have := h.new_fits
    omega
  have hlit : lit "@@" = 64 :: [64] := by decide
  have hfields : fields (32 :: ((45 :: h.old.render) ++ 32 :: ((43 :: h.new.render) ++ [32]))) =
      [45 :: h.old.render,43 :: h.new.render] := by
    have hold := visible_render h.old (c := 45) (by decide)
    have hnew := visible_render h.new (c := 43) (by decide)
    have hempty : fields [] = [] := by decide
    rw [fields_space,fields_word (List.cons_ne_nil _ _) hold,fields_word (List.cons_ne_nil _ _) hnew,hempty]
  have hminus := rangeStart_render h.old (c := 45) hfit.1
  have hplus := rangeStart_render h.new (c := 43) hfit.2
  have hm : lit "-" = [45] := by decide
  have hp : lit "+" = [43] := by decide
  rw [parseHunkHeader,hsplit,hlit,cut_append_word hat]
  simp only [hfields]
  simp [hasPrefix,hm,hp,hminus,hplus,hunkFields]

end Header

section Anchors
variable (newPath oldPath : Bytes)

/-- The anchor a line of the diff gets, if any. -/
def anchorOf (s : Walk) (raw : Bytes) : Option DiffAnchor :=
  if hasPrefix raw (lit "@@") || s.inHunk = false || hasPrefix raw (lit "+++") || hasPrefix raw (lit "---") ||
      hasPrefix raw (lit "\\") then none
  else if hasPrefix raw (lit "+") then some ⟨newPath,oldPath,s.newNo,0,false⟩
  else if hasPrefix raw (lit "-") then none
  else some ⟨newPath,oldPath,s.newNo,s.oldNo,true⟩

def anchors : Walk → List Bytes → List DiffAnchor
  | _, [] => []
  | s, l :: ls => (anchorOf newPath oldPath s l).toList ++ anchors (walkLine newPath oldPath s l) ls

/-- Each anchor put under its line. -/
def putAll (lines : GoMap ℤ DiffAnchor) (as : List DiffAnchor) : GoMap ℤ DiffAnchor :=
  as.foldl (fun m a => m.insert a.newLine a) lines

lemma lines_walkLine (s : Walk) (raw : Bytes) :
    (walkLine newPath oldPath s raw).lines = putAll s.lines (anchorOf newPath oldPath s raw).toList := by
  rw [walkLine,anchorOf]
  cases hasPrefix raw (lit "@@") with
  | true => cases parseHunkHeader raw <;> rfl
  | false =>
    cases hskip : s.inHunk = false || hasPrefix raw (lit "+++") || hasPrefix raw (lit "---") ||
        hasPrefix raw (lit "\\") with
    | true =>
      rw [Bool.false_or,hskip]
      rfl
    | false =>
      rw [Bool.false_or,hskip]
      cases hasPrefix raw (lit "+") with
      | true => rfl
      | false => cases hasPrefix raw (lit "-") <;> rfl

/-- The walk puts the anchors of the lines one by one. -/
lemma lines_foldl_walkLine (ls : List Bytes) (s : Walk) :
    (ls.foldl (walkLine newPath oldPath) s).lines = putAll s.lines (anchors newPath oldPath s ls) := by
  induction ls generalizing s with
  | nil => rfl
  | cons l ls ih => rw [List.foldl_cons,ih,lines_walkLine,anchors,putAll,putAll,putAll,List.foldl_append]

lemma anchors_append (ls ls' : List Bytes) (s : Walk) : anchors newPath oldPath s (ls ++ ls') =
    anchors newPath oldPath s ls ++ anchors newPath oldPath (ls.foldl (walkLine newPath oldPath) s) ls' := by
  induction ls generalizing s with
  | nil => rfl
  | cons l ls ih => rw [List.cons_append,anchors,ih,anchors,List.append_assoc,List.foldl_cons]

/-- A line that leaves no trace. -/
lemma anchors_plain {ls : List Bytes} (h : ∀ l ∈ ls, hasPrefix l (lit "@@") = false) (lines : GoMap ℤ DiffAnchor) :
    anchors newPath oldPath { lines := lines } ls = [] ∧
      ls.foldl (walkLine newPath oldPath) { lines := lines } = { lines := lines } := by
  induction ls with
  | nil => exact ⟨rfl,rfl⟩
  | cons l ls ih =>
    have hl := h l List.mem_cons_self
    have hwalk : walkLine newPath oldPath { lines := lines } l = { lines := lines } := by
      rw [walkLine,hl]
      rfl
    have hanchor : anchorOf newPath oldPath { lines := lines } l = none := by
      rw [anchorOf,hl]
      rfl
    rw [anchors,List.foldl_cons,hwalk,hanchor]
    exact ih fun l' hl' => h l' (List.mem_cons_of_mem l hl')

lemma isSome_lookup_putAll (as : List DiffAnchor) (lines : GoMap ℤ DiffAnchor) (n : ℤ) :
    (AList.lookup n (putAll lines as)).isSome ↔ (AList.lookup n lines).isSome ∨ ∃ a ∈ as, a.newLine = n := by
  induction as generalizing lines with
  | nil => simp [putAll]
  | cons a as ih =>
    rw [putAll,List.foldl_cons,← putAll,ih]
    by_cases hn : n = a.newLine
    · rw [hn,AList.lookup_insert]
      exact iff_of_true (.inl rfl) (.inr ⟨a,List.mem_cons_self,rfl⟩)
    · rw [AList.lookup_insert_ne hn]
      simp [Ne.symm hn]

/-- Each anchor stands under its own line. -/
def Anchored (lines : GoMap ℤ DiffAnchor) : Prop := ∀ n a, AList.lookup n lines = some a → a.newLine = n

lemma anchored_putAll (as : List DiffAnchor) {lines : GoMap ℤ DiffAnchor} (h : Anchored lines) :
    Anchored (putAll lines as) := by
  induction as generalizing lines with
  | nil => exact h
  | cons a as ih =>
    refine ih fun n b hb => ?_
    rcases GoMap.lookup_insert_cases hb with ⟨rfl,rfl⟩ | ⟨-,hb⟩
    · rfl
    · exact h n b hb

end Anchors

section Walking
variable (newPath oldPath : Bytes)

/-- The lines that get a number. -/
def numbered : Line → Bool
  | .context _ => true
  | .blank => true
  | .added t => !hasPrefix t (lit "++")
  | .removed _ => false
  | .noNewline _ => false

/-- The lines that are counted in the old file. -/
def counted : Line → Bool
  | .context _ => true
  | .blank => true
  | .added _ => false
  | .removed t => !hasPrefix t (lit "--")
  | .noNewline _ => false

/-- How many numbers the lines of a hunk get. -/
def reach (ls : List Line) : ℕ := ls.countP numbered

/-- The anchor of a line by the numbers it comes at. -/
def lineAnchor (n o : ℤ) : Line → Option DiffAnchor
  | .context _ => some ⟨newPath,oldPath,n,o,true⟩
  | .blank => some ⟨newPath,oldPath,n,o,true⟩
  | .added t => if hasPrefix t (lit "++") then none else some ⟨newPath,oldPath,n,0,false⟩
  | .removed _ => none
  | .noNewline _ => none

/-- The anchors of lines that start at two numbers. -/
def walked : ℤ → ℤ → List Line → List DiffAnchor
  | _, _, [] => []
  | n, o, l :: ls =>
    (lineAnchor newPath oldPath n o l).toList ++ walked (n + (numbered l).toNat) (o + (counted l).toNat) ls

lemma walkLine_line (lines : GoMap ℤ DiffAnchor) (n o : ℤ) (l : Line) :
    anchorOf newPath oldPath ⟨lines,n,o,true⟩ l.render = lineAnchor newPath oldPath n o l ∧
      walkLine newPath oldPath ⟨lines,n,o,true⟩ l.render = ⟨putAll lines (lineAnchor newPath oldPath n o l).toList,
        n + (numbered l).toNat,o + (counted l).toNat,true⟩ := by
  have hsame : ∀ k : ℤ, k = k + ((0 : ℕ) : ℤ) := fun k => (Int.add_zero k).symm
  cases l with
  | context t => exact ⟨rfl,rfl⟩
  | blank => exact ⟨rfl,rfl⟩
  | added t =>
    have hp : hasPrefix (43 :: t.val) (lit "+++") = hasPrefix t (lit "++") := rfl
    rw [Line.render,anchorOf,walkLine,hp,lineAnchor,numbered,counted]
    cases hasPrefix t.val (lit "++") with
    | true => exact ⟨rfl,congrArg₂ (fun n o => (⟨lines,n,o,true⟩ : Walk)) (hsame n) (hsame o)⟩
    | false => exact ⟨rfl,congrArg (fun o => (⟨_,n+1,o,true⟩ : Walk)) (hsame o)⟩
  | removed t =>
    have hp : hasPrefix (45 :: t.val) (lit "---") = hasPrefix t (lit "--") := rfl
    rw [Line.render,anchorOf,walkLine,hp,lineAnchor,numbered,counted]
    cases hasPrefix t.val (lit "--") with
    | true => exact ⟨rfl,congrArg₂ (fun n o => (⟨lines,n,o,true⟩ : Walk)) (hsame n) (hsame o)⟩
    | false => exact ⟨rfl,congrArg (fun n => (⟨lines,n,o+1,true⟩ : Walk)) (hsame n)⟩
  | noNewline t => exact ⟨rfl,congrArg₂ (fun n o => (⟨lines,n,o,true⟩ : Walk)) (hsame n) (hsame o)⟩

/-- The body of a hunk: its anchors, and where the walk stands after it. -/
lemma walk_body (ls : List Line) (lines : GoMap ℤ DiffAnchor) (n o : ℤ) :
    anchors newPath oldPath ⟨lines,n,o,true⟩ (ls.map Line.render) = walked newPath oldPath n o ls ∧
      ∃ lines', (ls.map Line.render).foldl (walkLine newPath oldPath) ⟨lines,n,o,true⟩ =
        ⟨lines',n + reach ls,o + (ls.countP counted : ℕ),true⟩ := by
  induction ls generalizing lines n o with
  | nil => exact ⟨rfl,lines,by simp [reach]⟩
  | cons l ls ih =>
    obtain ⟨hanchor,hwalk⟩ := walkLine_line newPath oldPath lines n o l
    obtain ⟨hrest,lines',hfold⟩ := ih (putAll lines (lineAnchor newPath oldPath n o l).toList)
      (n + (numbered l).toNat) (o + (counted l).toNat)
    have hnew : n + (numbered l).toNat + reach ls = n + reach (l :: ls) := by
      rw [reach,reach,List.countP_cons]
      cases numbered l <;> simp
      omega
    have hold : o + (counted l).toNat + (ls.countP counted : ℕ) = o + ((l :: ls).countP counted : ℕ) := by
      rw [List.countP_cons]
      cases counted l <;> simp
      omega
    rw [List.map_cons,anchors,List.foldl_cons,hanchor,hwalk,hrest,hfold,hnew,hold]
    exact ⟨rfl,lines',rfl⟩

lemma isSome_lineAnchor (n o : ℤ) (l : Line) : (lineAnchor newPath oldPath n o l).isSome = numbered l := by
  cases l with
  | context t => rfl
  | blank => rfl
  | added t =>
    rw [lineAnchor,numbered]
    cases hasPrefix t.val (lit "++") <;> rfl
  | removed t => rfl
  | noNewline t => rfl

lemma newLine_of_lineAnchor {n o : ℤ} {l : Line} {a : DiffAnchor} (h : lineAnchor newPath oldPath n o l = some a) :
    a.newLine = n := by
  cases l with
  | context t => rw [← Option.some.inj h]
  | blank => rw [← Option.some.inj h]
  | added t =>
    rw [lineAnchor] at h
    split at h
    · cases h
    · rw [← Option.some.inj h]
  | removed t => cases h
  | noNewline t => cases h

lemma mem_walked {ls : List Line} {n o m : ℤ} :
    (∃ a ∈ walked newPath oldPath n o ls, a.newLine = m) ↔ n ≤ m ∧ m < n + reach ls := by
  induction ls generalizing n o with
  | nil => simp [walked,reach]
  | cons l ls ih =>
    have hfirst : (∃ a ∈ (lineAnchor newPath oldPath n o l).toList, a.newLine = m) ↔ numbered l = true ∧ m = n := by
      rw [← isSome_lineAnchor newPath oldPath n o l]
      cases ha : lineAnchor newPath oldPath n o l with
      | none => simp
      | some a => simp [newLine_of_lineAnchor newPath oldPath ha,eq_comm]
    rw [walked]
    simp only [List.mem_append,or_and_right,exists_or]
    rw [hfirst,ih,reach,reach,List.countP_cons]
    cases numbered l <;> simp
    omega

/-- The numbers the walk gives in a hunk. -/
def InReach (h : Hunk) (n : ℤ) : Prop := h.new.start ≤ n ∧ n < h.new.start + reach h.body

/-- The number after the hunks, when there are any. -/
def After (hs : List Hunk) (n : ℤ) : Prop := ∃ h, hs.getLast? = some h ∧ n = h.new.start + reach h.body

/-- The numbers the walk gives in a patch: those of its hunks, and one more for a last newline. -/
def Reached (p : Patch) (n : ℤ) : Prop :=
  (∃ h ∈ p.hunks, InReach h n) ∨ (p.finalNewline = true ∧ After p.hunks n)

/-- No line of the new file is left out, when no added line begins with `++`. -/
lemma reach_eq {ls : List Line} (h : ∀ t, Line.added t ∈ ls → hasPrefix t (lit "++") = false) :
    reach ls = ls.countP Line.inNew := by
  refine List.countP_congr fun l hl => ?_
  cases l with
  | context t => rfl
  | blank => rfl
  | added t => simp [numbered,Line.inNew,h t hl]
  | removed t => rfl
  | noNewline t => rfl

lemma reached_of_mem_added {p : Patch} {n : ℕ}
    (h : ∀ k ∈ p.hunks, ∀ t, Line.added t ∈ k.body → hasPrefix t (lit "++") = false)
    (hn : n ∈ p.added) : Reached p n := by
  obtain ⟨k,hk,hn⟩ := List.mem_flatMap.mp hn
  have hle := le_of_mem_addedFrom hn
  refine .inl ⟨k,hk,?_⟩
  rw [InReach,reach_eq (h k hk)]
  omega

lemma walkLine_header (s : Walk) (h : Hunk) : walkLine newPath oldPath s h.header =
    { s with oldNo := h.old.start, newNo := h.new.start, inHunk := true } := by
  have hat : hasPrefix h.header (lit "@@") = true := rfl
  rw [walkLine,if_pos hat,parseHunkHeader_header]

lemma anchorOf_header (s : Walk) (h : Hunk) : anchorOf newPath oldPath s h.header = none := by
  have hat : hasPrefix h.header (lit "@@") = true := rfl
  rw [anchorOf,hat]
  rfl

/-- The anchors of a hunk. -/
def hunkAnchors (h : Hunk) : List DiffAnchor := walked newPath oldPath h.new.start h.old.start h.body

/-- The anchor of the empty text after a last newline. -/
def lastAnchor (h : Hunk) : DiffAnchor :=
  ⟨newPath,oldPath,h.new.start + reach h.body,h.old.start + (h.body.countP counted : ℕ),true⟩

lemma walk_hunks (hs : List Hunk) (s : Walk) :
    anchors newPath oldPath s (hs.flatMap Hunk.lines) = hs.flatMap (hunkAnchors newPath oldPath) ∧
      ∀ h, hs.getLast? = some h → anchorOf newPath oldPath ((hs.flatMap Hunk.lines).foldl
        (walkLine newPath oldPath) s) [] = some (lastAnchor newPath oldPath h) := by
  induction hs using List.reverseRecOn with
  | nil => exact ⟨rfl,fun h hh => by simp at hh⟩
  | append_singleton hs h ih =>
    rw [List.flatMap_append,List.flatMap_singleton,anchors_append,List.foldl_append,Hunk.lines,List.foldl_cons,
      walkLine_header,anchors,anchorOf_header,walkLine_header,ih.1,List.flatMap_append,List.flatMap_singleton]
    obtain ⟨hbody,lines',hfold⟩ := walk_body newPath oldPath h.body
      ((hs.flatMap Hunk.lines).foldl (walkLine newPath oldPath) s).lines h.new.start h.old.start
    refine ⟨congrArg _ hbody,fun k hk => ?_⟩
    obtain rfl : h = k := by simpa using hk
    rw [hfold]
    rfl

/-- The anchors of a patch, in the order they are put. -/
def patchAnchors (p : Patch) : List DiffAnchor :=
  p.hunks.flatMap (hunkAnchors newPath oldPath) ++
    if p.finalNewline then (p.hunks.getLast?.map (lastAnchor newPath oldPath)).toList else []

theorem anchors_render (p : Patch) (lines : GoMap ℤ DiffAnchor) :
    anchors newPath oldPath { lines := lines } (p.render.splitOn newline) = patchAnchors newPath oldPath p := by
  obtain ⟨hnone,hstart⟩ := anchors_plain newPath oldPath p.preamble_no_header lines
  obtain ⟨hhunks,hlast⟩ := walk_hunks newPath oldPath p.hunks { lines := lines }
  rw [p.read_render (anchors newPath oldPath { lines := lines }) rfl,Patch.lines,anchors_append,anchors_append,
    List.foldl_append,hnone,hstart,hhunks,List.nil_append,patchAnchors]
  congr 1
  split
  · rw [anchors,anchors,List.append_nil]
    cases hh : p.hunks.getLast? with
    | none =>
      obtain hnil := List.getLast?_eq_none_iff.mp hh
      rw [hnil]
      rfl
    | some h =>
      rw [hlast h hh]
      rfl
  · rfl

lemma mem_patchAnchors {p : Patch} {n : ℤ} :
    (∃ a ∈ patchAnchors newPath oldPath p, a.newLine = n) ↔ Reached p n := by
  rw [patchAnchors,Reached]
  simp only [List.mem_append,or_and_right,exists_or]
  refine or_congr ?_ ?_
  · simp only [List.mem_flatMap,InReach]
    constructor
    · rintro ⟨a,⟨h,hh,ha⟩,hn⟩
      exact ⟨h,hh,(mem_walked newPath oldPath).mp ⟨a,ha,hn⟩⟩
    · rintro ⟨h,hh,hn⟩
      obtain ⟨a,ha,hn⟩ := (mem_walked newPath oldPath (o := h.old.start)).mpr hn
      exact ⟨a,⟨h,hh,ha⟩,hn⟩
  · cases p.finalNewline with
    | false => simp
    | true =>
      rw [After]
      cases p.hunks.getLast? with
      | none => simp
      | some h => simp [lastAnchor,eq_comm]

end Walking

/-- A file of a diff under the name it has on one of the two sides. -/
structure FileDiff where
  newPath : Bytes
  oldPath : Bytes
  patch : Patch
  named : newPath ≠ [] ∨ oldPath ≠ []

namespace FileDiff
variable (d : FileDiff)

def path : Bytes := if d.newPath = [] then d.oldPath else d.newPath

def mergeRequestDiff : MergeRequestDiff := ⟨d.newPath,d.oldPath,d.patch.render⟩

lemma path_ne_nil : d.path ≠ [] := by
  rw [path]
  split
  · next h => exact d.named.resolve_left (absurd h)
  · next h => exact h

end FileDiff

section Index

/-- What the index has under a file and a number. -/
def found (idx : DiffIndex) (file : Bytes) (n : ℤ) : Option DiffAnchor :=
  (AList.lookup file idx).bind fun lines => AList.lookup n lines

lemma lookup_get (idx : DiffIndex) (file : Bytes) (n : ℤ) :
    AList.lookup n (idx.get file) = found idx file n := by
  rw [GoMap.get,found]
  cases AList.lookup file idx with
  | none => exact AList.lookup_empty n
  | some lines => rfl

lemma found_insert (idx : DiffIndex) (path file : Bytes) (lines : GoMap ℤ DiffAnchor) (n : ℤ) :
    found (idx.insert path lines) file n = if file = path then AList.lookup n lines else found idx file n := by
  rw [found]
  split
  · next h =>
    subst h
    rw [AList.lookup_insert]
    rfl
  · next h =>
    rw [AList.lookup_insert_ne h]
    rfl

/-- Every anchor of the index stands under its own line. -/
def Indexed (idx : DiffIndex) : Prop := ∀ file n a, found idx file n = some a → a.newLine = n

lemma indexDiff_eq (idx : DiffIndex) (d : FileDiff) (h : d.patch.render ≠ []) :
    indexDiff idx (some d.mergeRequestDiff) = idx.insert d.path ((d.patch.render.splitOn newline).foldl
      (walkLine d.path (if d.oldPath = [] then d.path else d.oldPath)) { lines := idx.get d.path }).lines := by
  have hpath := d.path_ne_nil
  rw [FileDiff.path] at hpath ⊢
  rw [indexDiff,FileDiff.mergeRequestDiff,if_neg h]
  simp only [if_neg hpath]

/-- The anchors that a file of the diff brings. -/
def FileDiff.anchors (d : FileDiff) : List DiffAnchor :=
  patchAnchors d.path (if d.oldPath = [] then d.path else d.oldPath) d.patch

lemma found_indexDiff (idx : DiffIndex) (d : FileDiff) (file : Bytes) (n : ℤ) :
    found (indexDiff idx (some d.mergeRequestDiff)) file n =
      if file = d.path then AList.lookup n (putAll (idx.get d.path) d.anchors) else found idx file n := by
  have hanchors := anchors_render d.path (if d.oldPath = [] then d.path else d.oldPath) d.patch (idx.get d.path)
  by_cases hd : d.patch.render = []
  · have hnone : d.anchors = [] := by
      rw [hd] at hanchors
      exact hanchors.symm
    rw [indexDiff,FileDiff.mergeRequestDiff,if_pos hd,hnone]
    split
    · next h => rw [h,putAll,List.foldl_nil,lookup_get]
    · rfl
  · rw [indexDiff_eq idx d hd,found_insert,lines_foldl_walkLine,hanchors]
    rfl

lemma indexDiff_found (idx : DiffIndex) (d : FileDiff) :
    (∀ file n, (found (indexDiff idx (some d.mergeRequestDiff)) file n).isSome ↔
      (found idx file n).isSome ∨ file = d.path ∧ Reached d.patch n) ∧
    (Indexed idx → Indexed (indexDiff idx (some d.mergeRequestDiff))) := by
  refine ⟨fun file n => ?_,fun hidx file n a ha => ?_⟩
  · rw [found_indexDiff]
    split
    · next h =>
      rw [isSome_lookup_putAll,lookup_get,FileDiff.anchors,mem_patchAnchors,h,and_iff_right rfl]
    · next h => simp [h]
  · rw [found_indexDiff] at ha
    split at ha
    · refine anchored_putAll d.anchors (fun m b hb => ?_) n a ha
      rw [lookup_get] at hb
      exact hidx d.path m b hb
    · exact hidx file n a ha

/-- The index of some diffs: the numbers reached in the files, each under its own anchor. -/
theorem indexDiffs_found (ds : List FileDiff) :
    let idx := indexDiffs (ds.map fun d => some d.mergeRequestDiff)
    (∀ file n, (found idx file n).isSome ↔ ∃ d ∈ ds, file = d.path ∧ Reached d.patch n) ∧ Indexed idx := by
  have hrun : ∀ idx : DiffIndex,
      (∀ file n, (found ((ds.map fun d => some d.mergeRequestDiff).foldl indexDiff idx) file n).isSome ↔
        (found idx file n).isSome ∨ ∃ d ∈ ds, file = d.path ∧ Reached d.patch n) ∧
      (Indexed idx → Indexed ((ds.map fun d => some d.mergeRequestDiff).foldl indexDiff idx)) := by
    induction ds with
    | nil => exact fun idx => ⟨fun file n => by simp,id⟩
    | cons d ds ih =>
      intro idx
      obtain ⟨hfound,hidx⟩ := indexDiff_found idx d
      obtain ⟨hrest,hrestidx⟩ := ih (indexDiff idx (some d.mergeRequestDiff))
      refine ⟨fun file n => ?_,fun h => hrestidx (hidx h)⟩
      rw [List.map_cons,List.foldl_cons,hrest,hfound,or_assoc]
      simp
  obtain ⟨hfound,hidx⟩ := hrun ∅
  have hnone : ∀ file n, found ∅ file n = none := fun file n => rfl
  refine ⟨fun file n => ?_,hidx fun file n a ha => ?_⟩
  · rw [indexDiffs,hfound,hnone]
    simp
  · rw [hnone] at ha
    cases ha

/-- A line is found just when the walk reaches it, and its anchor is on that line. -/
theorem lookup_indexDiffs (ds : List FileDiff) (file : Bytes) {n : ℤ} (hn : 0 < n) :
    let idx := indexDiffs (ds.map fun d => some d.mergeRequestDiff)
    ((lookup idx file n).isSome ↔ ∃ d ∈ ds, file = d.path ∧ Reached d.patch n) ∧
      ∀ a, lookup idx file n = some a → a.newLine = n := by
  obtain ⟨hfound,hidx⟩ := indexDiffs_found ds
  dsimp only
  by_cases hf : file = []
  · have hno : ¬ ∃ d ∈ ds, file = d.path ∧ Reached d.patch n := by
      rintro ⟨d,-,hd,-⟩
      exact d.path_ne_nil (hd.symm.trans hf)
    rw [lookup,if_pos (.inl hf)]
    exact ⟨iff_of_false (by simp) hno,fun a ha => by cases ha⟩
  · have hneg : ¬ (file = [] ∨ n ≤ 0) := by
      rintro (h | h)
      · exact hf h
      · omega
    rw [lookup,if_neg hneg]
    exact ⟨hfound file n,fun a ha => hidx file n a ha⟩

end Index

end GitLab
