import Cadoo.Findings.MemoryStore
import Cadoo.Lib.Occurrences
import Cadoo.Vcs.Marker

/-! The consolidated overview comment and the managed region of a pull-request description. -/
namespace Orchestrator
open Bytes Utf8 Vcs Findings

def wrapperBegin : Bytes := SummaryWrapperBegin
def wrapperEnd : Bytes := lit "<!-- cadoo:wrapper:end -->"
def prSectionBegin : Bytes := lit "<!-- cadoo:pr-body:begin -->"
def prSectionEnd : Bytes := lit "<!-- cadoo:pr-body:end -->"

/-- The location of an image among the assets. -/
def asset (file : String) : Bytes :=
  lit "https://raw.githubusercontent.com/payamqorbanpour/cadoo/main/docs/assets/" ++ lit file

def descriptionAvatar : Bytes :=
  lit "<img src=\"" ++ asset "Description.png" ++
    lit "\" height=\"28\" align=\"absmiddle\" alt=\"Description\">"

def sectionTitle : List (Bytes × Bytes) :=
  [(lit "describe",lit "Description"),(lit "review",lit "Review"),
    (lit "deep_review",lit "Deep review"),(lit "improve",lit "Suggested improvements"),
    (lit "changelog",lit "Changelog"),(lit "add_tests",lit "Tests to add"),
    (lit "add_docs",lit "Docs to add"),(lit "plan",lit "Implementation plan"),
    (lit "ask",lit "Q&A"),(lit "check",lit "Custom checks")]

def sectionImage (file alt : String) : Bytes :=
  lit "<img src=\"" ++ asset file ++ lit "\" height=\"20\" align=\"absmiddle\" alt=\"" ++ lit alt ++
    lit "\">"

def sectionEmoji : List (Bytes × Bytes) :=
  [(lit "describe",sectionImage "Description.png" "Description"),
    (lit "review",sectionImage "Magnifier.png" "Review"),(lit "deep_review",lit "🔬"),
    (lit "improve",sectionImage "Improvement.png" "Improve"),(lit "changelog",lit "📝"),
    (lit "add_tests",lit "🧪"),(lit "add_docs",lit "📚"),(lit "plan",lit "🗺"),(lit "ask",lit "❓"),
    (lit "check",sectionImage "Flash.png" "Check")]

/-- A table read as a map of strings: the empty string for a missing key. -/
def label (table : List (Bytes × Bytes)) (tool : Bytes) : Bytes := (table.lookup tool).getD []

/-- The first rune of each word put in upper case, when it is an ASCII letter. -/
def titleCaseFrom : Bool → List Char → List Char
  | _, [] => []
  | upper, r :: rs =>
    if r = ' ' then r :: titleCaseFrom true rs
    else (if upper && isLower r then Char.ofNat (r.toNat-32) else r) :: titleCaseFrom false rs

def titleCase (s : Bytes) : Bytes := encode (titleCaseFrom true (runes s))

def renderSection (s : Section) : Bytes :=
  let title := label sectionTitle s.tool
  let title := if title = [] then titleCase (replaceAll s.tool (lit "_") (lit " ")) else title
  let emoji := label sectionEmoji s.tool
  let emoji := if emoji = [] then lit "•" else emoji
  lit "<details><summary>" ++ emoji ++ lit " <strong>" ++ title ++
    lit "</strong></summary>\n\n" ++ trimSpace s.body ++ lit "\n\n</details>\n"

/-- Review first, the other tools by name. -/
def sectionLess (a b : Section) : Bool :=
  if a.tool = lit "review" then b.tool ≠ lit "review"
  else if b.tool = lit "review" then false
  else less a.tool b.tool

def renderConsolidated (sections : List Section) (headSHA : Bytes) : Bytes :=
  let sorted := sections.insertionSort fun a b => sectionLess b a = false
  wrapperBegin ++ lit "\n" ++
    (if headSHA ≠ [] then RenderReviewedSHA headSHA ++ lit "\n" else []) ++
    sorted.flatMap (fun s => renderSection s ++ lit "\n") ++ wrapperEnd

/-- The cutset `" \n\t"`. -/
def blank (b : UInt8) : Bool := b == 32 || b == 10 || b == 9

def joinBody (userText sec tail : Bytes) : Bytes :=
  let tail := tail.dropWhile blank
  (if userText ≠ [] then userText ++ lit "\n\n" else []) ++ prSectionBegin ++
    lit "\n## " ++ descriptionAvatar ++ lit " Cadoo Description\n\n" ++ sec ++ lit "\n" ++
    prSectionEnd ++ (if tail ≠ [] then lit "\n\n" ++ tail else [])

def spliceCadooBody (original sec : Bytes) : Bytes :=
  let sec := trimSpace sec
  match cut original prSectionBegin,cut original prSectionEnd with
  | some (head,_),some (upTo,tail) =>
    if upTo.length > head.length then joinBody (head.rdropWhile blank) sec tail
    else joinBody (original.rdropWhile blank) sec []
  | _,_ => joinBody (original.rdropWhile blank) sec []

/-- Every section given to the renderer stands in the overview, its body trimmed. -/
theorem renderSection_isInfix {sections : List Section} {s : Section} (h : s ∈ sections)
    (headSHA : Bytes) : renderSection s <:+: renderConsolidated sections headSHA := by
  have hs : s ∈ sections.insertionSort fun a b => sectionLess b a = false :=
    (List.perm_insertionSort _ _).mem_iff.mpr h
  obtain ⟨l,r,hlr⟩ := List.append_of_mem hs
  rw [renderConsolidated,hlr]
  simp only [List.flatMap_append,List.flatMap_cons,← List.append_assoc]
  rw [List.append_assoc,List.append_assoc,List.append_assoc]
  exact List.infix_append' _ _ _

lemma trimSpace_isInfix (s : Section) : trimSpace s.body <:+: renderSection s := by
  rw [renderSection]
  exact List.infix_append _ _ _

theorem body_isInfix {sections : List Section} {s : Section} (h : s ∈ sections) (headSHA : Bytes) :
    trimSpace s.body <:+: renderConsolidated sections headSHA :=
  (trimSpace_isInfix s).trans (renderSection_isInfix h headSHA)

def shownTitle (tool : Bytes) : Bytes :=
  if label sectionTitle tool = [] then titleCase (replaceAll tool (lit "_") (lit " "))
  else label sectionTitle tool

def shownEmoji (tool : Bytes) : Bytes :=
  if label sectionEmoji tool = [] then lit "•" else label sectionEmoji tool

/-- A section's header, up to the blank line before its body. -/
def sectionHeader (tool : Bytes) : Bytes :=
  lit "<details><summary>" ++ shownEmoji tool ++ lit " <strong>" ++ shownTitle tool ++
    lit "</strong></summary>\n"

lemma renderSection_eq (s : Section) (rest : Bytes) : renderSection s ++ lit "\n" ++ rest =
    sectionHeader s.tool ++ newline :: (trimSpace s.body ++ newline :: (lit "\n</details>\n" ++ newline :: rest)) := by
  have h₁ : lit "</strong></summary>\n\n" = lit "</strong></summary>\n" ++ [newline] := by decide
  have h₂ : lit "\n\n</details>\n" ++ lit "\n" = newline :: (lit "\n</details>\n" ++ [newline]) := by decide
  have hleft : renderSection s ++ lit "\n" ++ rest = lit "<details><summary>" ++ shownEmoji s.tool ++
      lit " <strong>" ++ shownTitle s.tool ++ lit "</strong></summary>\n\n" ++ trimSpace s.body ++
        (lit "\n\n</details>\n" ++ lit "\n") ++ rest := by
    simp only [renderSection,shownEmoji,shownTitle,List.append_assoc]
  rw [hleft,h₁,h₂,sectionHeader]
  simp

/-- A text stands in one of the sections, in the line above one, or in the markup around them. -/
inductive Repeated (sections : Section → Prop) (sha b : Bytes) : Prop
  | body (j : Section) (hj : sections j) (h : b <:+: trimSpace j.body)
  | heading (j : Section) (hj : sections j) (h : b <:+: sectionHeader j.tool)
  | closing (j : Section) (hj : sections j) (h : b <:+: lit "</details>")
  | opens (h : b <:+: wrapperBegin)
  | sha (hsha : sha ≠ []) (h : b <:+: RenderReviewedSHA sha)
  | ends (h : b <:+: wrapperEnd)

/-- No line break of the text stands behind a closing or in front of an opening angle bracket. -/
def Seamless (b : Bytes) : Prop := ¬ [62,newline] <:+: b ∧ ¬ [newline,60] <:+: b

/-- A header is a tag and the end of its line. -/
lemma sectionHeader_tag (tool : Bytes) :
    ∃ tag, sectionHeader tool = tag ++ [newline] ∧ tag.getLast? = some 62 := by
  have hend : lit "</strong></summary>\n" = lit "</strong></summary>" ++ [newline] := rfl
  refine ⟨lit "<details><summary>" ++ shownEmoji tool ++ lit " <strong>" ++ shownTitle tool ++
    lit "</strong></summary>",?_,?_⟩
  · rw [sectionHeader,hend,List.append_assoc _ _ [newline]]
  · rw [List.getLast?_append_of_ne_nil _ (by decide)]
    rfl

lemma renderReviewedSHA_getLast? (sha : Bytes) : (RenderReviewedSHA sha).getLast? = some 62 := by
  rw [RenderReviewedSHA,List.getLast?_append_of_ne_nil _ (by decide)]
  rfl

lemma sectionHeader_isInfix (s : Section) : sectionHeader s.tool <:+: renderSection s := by
  have h : lit "</strong></summary>\n\n" = lit "</strong></summary>\n" ++ [newline] := by decide
  rw [sectionHeader,shownEmoji,shownTitle,renderSection,h]
  simp only [← List.append_assoc]
  rw [List.append_assoc _ [newline],List.append_assoc _ _ (lit "\n\n</details>\n")]
  exact (List.prefix_append _ _).isInfix

lemma closing_isInfix (s : Section) : lit "</details>" <:+: renderSection s := by
  have h : lit "</details>" <:+: lit "\n\n</details>\n" := by decide
  rw [renderSection]
  exact h.trans (List.suffix_append _ _).isInfix

/-- What is repeated can be read in the overview. -/
theorem Repeated.isInfix {sections : List Section} {sha b : Bytes} (h : Repeated (· ∈ sections) sha b) :
    b <:+: renderConsolidated sections sha := by
  have hsection : ∀ s ∈ sections, ∀ piece, piece <:+: renderSection s → b <:+: piece →
      b <:+: renderConsolidated sections sha :=
    fun s hs piece hpiece hb => (hb.trans hpiece).trans (renderSection_isInfix hs sha)
  cases h with
  | body s hs h => exact hsection s hs _ (trimSpace_isInfix s) h
  | heading s hs h => exact hsection s hs _ (sectionHeader_isInfix s) h
  | closing s hs h => exact hsection s hs _ (closing_isInfix s) h
  | opens h =>
    refine h.trans ?_
    rw [renderConsolidated]
    simp only [List.append_assoc]
    exact (List.prefix_append _ _).isInfix
  | sha hsha h =>
    refine h.trans ?_
    rw [renderConsolidated,if_pos hsha]
    simp only [List.append_assoc]
    exact (List.prefix_append _ _).isInfix.trans
      ((List.suffix_append (lit "\n") _).trans (List.suffix_append wrapperBegin _)).isInfix
  | ends h =>
    rw [renderConsolidated]
    exact h.trans (List.suffix_append _ _).isInfix

section Markup
variable {b : Bytes} (hseam : Seamless b) (hhead : b.head? ≠ some newline)

include hseam hhead in
lemma infix_tag {tag : Bytes} (htag : tag.getLast? = some 62) (rest : Bytes) :
    b <:+: tag ++ newline :: rest ↔ b <:+: tag ∨ b <:+: rest := by
  rw [infix_append_of_seam htag rfl hseam.1,infix_cons_of_head hhead]

variable (hlast : b.getLast? ≠ some newline)
include hseam hhead hlast

lemma infix_section (s : Section) (rest : Bytes) : b <:+: renderSection s ++ lit "\n" ++ rest ↔
    b <:+: sectionHeader s.tool ∨ b <:+: trimSpace s.body ∨ b <:+: lit "</details>" ∨ b <:+: rest := by
  obtain ⟨tag,htag,hgt⟩ := sectionHeader_tag s.tool
  have hs : renderSection s ++ lit "\n" ++ rest = tag ++ newline :: newline ::
      (((trimSpace s.body ++ [newline]) ++ [newline]) ++
        (lit "</details>" ++ newline :: newline :: rest)) := by
    have hclose : lit "\n</details>\n" = newline :: (lit "</details>" ++ [newline]) := rfl
    rw [renderSection_eq,htag,hclose]
    simp only [List.append_assoc,List.cons_append,List.nil_append]
  rw [hs,infix_tag hseam hhead hgt,infix_cons_of_head hhead,htag,infix_concat_of_last hlast,
    infix_append_of_seam List.getLast?_concat rfl hseam.2,infix_concat_of_last hlast,
    infix_concat_of_last hlast,infix_tag hseam hhead rfl,infix_cons_of_head hhead]

lemma infix_sections (sections : List Section) (rest : Bytes) :
    b <:+: (sections.flatMap fun s => renderSection s ++ lit "\n") ++ rest ↔
      (∃ s ∈ sections, b <:+: sectionHeader s.tool ∨ b <:+: trimSpace s.body ∨ b <:+: lit "</details>") ∨
        b <:+: rest := by
  induction sections with
  | nil => simp
  | cons s sections ih =>
    rw [List.flatMap_cons,List.append_assoc (renderSection s ++ lit "\n"),
      infix_section hseam hhead hlast s,ih]
    simp only [List.exists_mem_cons_iff,or_assoc]

/-- What can be read in an overview, as long as no line break stands beside an angle bracket. -/
theorem infix_renderConsolidated (sections : List Section) (sha : Bytes) :
    b <:+: renderConsolidated sections sha ↔ Repeated (· ∈ sections) sha b := by
  set sorted := sections.insertionSort fun a b => sectionLess b a = false with hsorted
  have hperm : ∀ s, s ∈ sorted ↔ s ∈ sections := fun s => (List.perm_insertionSort _ _).mem_iff
  have hstart : renderConsolidated sections sha = wrapperBegin ++ newline ::
      ((if sha ≠ [] then RenderReviewedSHA sha ++ lit "\n" else []) ++
        ((sorted.flatMap fun s => renderSection s ++ lit "\n") ++ wrapperEnd)) := by
    rw [renderConsolidated]
    simp only [List.append_assoc]
    rfl
  have hsha : ∀ rest, b <:+: (if sha ≠ [] then RenderReviewedSHA sha ++ lit "\n" else []) ++ rest ↔
      (sha ≠ [] ∧ b <:+: RenderReviewedSHA sha) ∨ b <:+: rest := by
    intro rest
    split
    · next hne =>
      rw [List.append_assoc,show lit "\n" ++ rest = newline :: rest from rfl,
        infix_tag hseam hhead (renderReviewedSHA_getLast? sha)]
      simp only [ne_eq,hne,not_false_eq_true,true_and]
    · next he => simp [not_not.mp he]
  refine ⟨?_,Repeated.isInfix⟩
  rw [hstart,infix_tag hseam hhead rfl,hsha,infix_sections hseam hhead hlast]
  rintro (h | ⟨hne,h⟩ | ⟨s,hs,h | h | h⟩ | h)
  · exact .opens h
  · exact .sha hne h
  · exact .heading s ((hperm s).mp hs) h
  · exact .body s ((hperm s).mp hs) h
  · exact .closing s ((hperm s).mp hs) h
  · exact .ends h

end Markup

end Orchestrator
