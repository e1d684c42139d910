import Cadoo.Lib.LetterCase
import Cadoo.ReleaseDocs.Types

/-! The data a changelog is rendered from, and the titles of its changes without their conventional prefix. The
prefix is looked for in a lower-cased copy and cut from the title itself; the first byte behind it is capitalized. -/
namespace ReleaseDocs
open Bytes Utf8

structure PRRef where
  number : ℤ
  url : Bytes := []
  deriving DecidableEq

structure ChangeItem where
  summary : Bytes
  author : Bytes
  pr : Option PRRef := none
  deriving DecidableEq

structure ChangeGroup where
  title : Bytes
  items : List ChangeItem
  deriving DecidableEq

/-- What a template is executed on. -/
structure TemplateData where
  toRef : Bytes
  fromRef : Bytes
  groups : List ChangeGroup
  deriving DecidableEq

def conventionalPrefixes : List Bytes :=
  [lit "feat!: ",lit "fix!: ",lit "feat: ",lit "fix: ",lit "perf: ",lit "chore: ",lit "docs: ",lit "style: ",
    lit "refactor: ",lit "test: ",lit "build: ",lit "ci: "]

section Strip
variable (U : Tables) (up : Char → Char)

def stripConventionalPrefix (title : Bytes) : Bytes :=
  let lower := toLower U title
  match conventionalPrefixes.find? (hasPrefix lower) with
  | some p =>
    let rest := title.drop p.length
    if 0 < rest.length then toUpper up (rest.take 1) ++ rest.drop 1 else rest
  | none => title

def buildTemplateData {W : Type} (rc : ReleaseContext W) : TemplateData where
  toRef := rc.toRef
  fromRef := rc.fromRef
  groups := rc.groupedModel.map fun sec =>
    { title := sec.title
      items := sec.entries.map fun (e : ChangeEntry) =>
        { summary := stripConventionalPrefix U up e.title
          author := e.author
          pr := if e.prNumber ≠ 0 then some { number := e.prNumber } else none } }

/-- A title is left alone, or loses a prefix and has what follows capitalized; it stays valid text. -/
structure KeepsText (title : Bytes) : Prop where
  text : stripConventionalPrefix U up title = title ∨ ∃ p ∈ conventionalPrefixes,
    BeginsWith title p ∧ stripConventionalPrefix U up title = capitalized up (title.drop p.length)
  valid : valid (stripConventionalPrefix U up title) = true

/-- No prefix begins the lower-cased title, or one begins the title itself, before ASCII or nothing. -/
def Strippable (title : Bytes) : Prop :=
  (∀ p ∈ conventionalPrefixes, ¬ p <+: toLower U title) ∨
    ∃ p ∈ conventionalPrefixes, BeginsWith title p ∧ ∀ b ∈ (title.drop p.length).head?, b < 128

variable {U up} {title p : Bytes}

lemma prefix_ascii (hp : p ∈ conventionalPrefixes) : ∀ b ∈ p, b < 128 := by
  have hall : conventionalPrefixes.all (fun p => p.all (· < 128)) = true := by decide
  exact forall_of_all (List.all_eq_true.mp hall p hp)

lemma prefix_length (hp : p ∈ conventionalPrefixes) : 4 ≤ p.length := by
  have hall : conventionalPrefixes.all (fun p => 4 ≤ p.length) = true := by decide
  exact of_decide_eq_true (List.all_eq_true.mp hall p hp)

/-- No prefix begins another. -/
lemma prefix_unique {q s : Bytes} (hp : p ∈ conventionalPrefixes) (hq : q ∈ conventionalPrefixes)
    (hps : p <+: s) (hqs : q <+: s) : p = q := by
  have hfree : ∀ p ∈ conventionalPrefixes, ∀ q ∈ conventionalPrefixes, p <+: q → p = q := by decide
  rcases List.prefix_or_prefix_of_prefix hps hqs with h | h
  · exact hfree p hp q hq h
  · exact (hfree q hq p hp h).symm

lemma find_listed : conventionalPrefixes.find? (hasPrefix (toLower U title)) = some p ↔
    p ∈ conventionalPrefixes ∧ p <+: toLower U title := by
  constructor
  · intro h
    have hpre : hasPrefix (toLower U title) p = true := List.find?_some h
    exact ⟨List.mem_of_find?_eq_some h,List.isPrefixOf_iff_prefix.mp hpre⟩
  · rintro ⟨hp,hpre⟩
    cases hfind : conventionalPrefixes.find? (hasPrefix (toLower U title)) with
    | none => exact absurd (List.isPrefixOf_iff_prefix.mpr hpre) (List.find?_eq_none.mp hfind p hp)
    | some q =>
      have hq : hasPrefix (toLower U title) q = true := List.find?_some hfind
      rw [prefix_unique hp (List.mem_of_find?_eq_some hfind) hpre (List.isPrefixOf_iff_prefix.mp hq)]

lemma strip_unmatched (h : ∀ p ∈ conventionalPrefixes, ¬ p <+: toLower U title) :
    stripConventionalPrefix U up title = title := by
  have hfind : conventionalPrefixes.find? (hasPrefix (toLower U title)) = none :=
    List.find?_eq_none.mpr fun p hp hpre => h p hp (List.isPrefixOf_iff_prefix.mp hpre)
  rw [stripConventionalPrefix,hfind]

lemma strip_matched (hp : p ∈ conventionalPrefixes) (h : p <+: toLower U title) :
    stripConventionalPrefix U up title =
      if 0 < (title.drop p.length).length then toUpper up ((title.drop p.length).take 1) ++ (title.drop p.length).drop 1
      else title.drop p.length := by
  rw [stripConventionalPrefix,find_listed.mpr ⟨hp,h⟩]

/-- The cut stays within the title. -/
lemma prefix_fits (hp : p ∈ conventionalPrefixes) (h : p <+: toLower U title) : p.length ≤ title.length :=
  length_le_of_prefix_toLower (prefix_ascii hp) h

/-- A matched title becomes shorter. -/
lemma length_strip_lt (hp : p ∈ conventionalPrefixes) (h : p <+: toLower U title) :
    (stripConventionalPrefix U up title).length < title.length := by
  have hfits := prefix_fits hp h
  have hlength := prefix_length hp
  have hrest : (title.drop p.length).length = title.length-p.length := List.length_drop
  rw [strip_matched hp h]
  cases hcut : title.drop p.length with
  | nil =>
    change 0 < title.length
    omega
  | cons b t =>
    have hupper := length_toUpper_singleton up b
    rw [hcut,List.length_cons] at hrest
    change (toUpper up [b] ++ t).length < title.length
    rw [List.length_append]
    omega

/-- Capitalizing the first byte keeps valid text valid just when that byte is ASCII. -/
lemma valid_strip_iff (hp : p ∈ conventionalPrefixes) (h : BeginsWith title p) (hvalid : valid title = true) :
    valid (stripConventionalPrefix U up title) = true ↔ ∀ b ∈ (title.drop p.length).head?, b < 128 := by
  have hrest := valid_behind (prefix_ascii hp) h hvalid
  rw [strip_matched hp (prefix_toLower (prefix_ascii hp) h)]
  cases hcut : title.drop p.length with
  | nil => exact iff_of_true rfl fun b hb => nomatch hb
  | cons b t =>
    rw [hcut] at hrest
    have hhead : (∀ c ∈ (b :: t).head?, c < 128) ↔ b < 128 := by simp
    rw [hhead,← valid_tail_iff hrest]
    change valid (toUpper up [b] ++ t) = true ↔ _
    rw [valid_append_left (valid_toUpper up [b])]

lemma strip_eq_capitalized (hp : p ∈ conventionalPrefixes) (h : BeginsWith title p) (hvalid : valid title = true)
    (hhead : ∀ b ∈ (title.drop p.length).head?, b < 128) :
    stripConventionalPrefix U up title = capitalized up (title.drop p.length) := by
  have hrest := valid_behind (prefix_ascii hp) h hvalid
  rw [strip_matched hp (prefix_toLower (prefix_ascii hp) h)]
  cases hcut : title.drop p.length with
  | nil => rfl
  | cons b t =>
    rw [hcut] at hrest hhead
    have hb : b < 128 := hhead b rfl
    rw [capitalized_cons hb up ((valid_tail_iff hrest).mpr hb)]
    change toUpper up [b] ++ t = _
    rw [toUpper_singleton hb]
    rfl

lemma keepsText_of_strippable (hvalid : valid title = true) (h : Strippable U title) : KeepsText U up title := by
  rcases h with h | ⟨p,hp,hbegins,hhead⟩
  · have hsame : stripConventionalPrefix U up title = title := strip_unmatched h
    exact ⟨Or.inl hsame,by rw [hsame,hvalid]⟩
  · exact ⟨Or.inr ⟨p,hp,hbegins,strip_eq_capitalized hp hbegins hvalid hhead⟩,
      (valid_strip_iff hp hbegins hvalid).mpr hhead⟩

/-- A title keeps its text just when no prefix is found in its lower-cased copy, or one is found where it stands in
the title and no rune beyond ASCII follows. -/
theorem stripConventionalPrefix_keeps_iff (hvalid : valid title = true) :
    KeepsText U up title ↔ Strippable U title := by
  refine ⟨fun h => ?_,keepsText_of_strippable hvalid⟩
  by_cases hmatch : ∃ p ∈ conventionalPrefixes, p <+: toLower U title
  · obtain ⟨p,hp,hpre⟩ := hmatch
    rcases h.text with hsame | ⟨q,hq,hbegins,-⟩
    · have hlt : (stripConventionalPrefix U up title).length < title.length := length_strip_lt hp hpre
      rw [hsame] at hlt
      exact absurd hlt (Nat.lt_irrefl _)
    · exact Or.inr ⟨q,hq,hbegins,(valid_strip_iff hq hbegins hvalid).mp h.valid⟩
  · exact Or.inl fun p hp hpre => hmatch ⟨p,hp,hpre⟩

/-- Every summary of a changelog is valid text when its titles can be stripped. -/
theorem buildTemplateData_valid {W : Type} {rc : ReleaseContext W}
    (h : ∀ sec ∈ rc.groupedModel, ∀ e ∈ sec.entries, valid e.title = true ∧ Strippable U e.title) :
    ∀ g ∈ (buildTemplateData U up rc).groups, ∀ i ∈ g.items, valid i.summary = true := by
  intro g hg i hi
  obtain ⟨sec,hsec,rfl⟩ := List.mem_map.mp hg
  obtain ⟨e,he,rfl⟩ := List.mem_map.mp hi
  obtain ⟨hvalid,hstrip⟩ := h sec hsec e he
  exact (keepsText_of_strippable hvalid hstrip).valid

end Strip

section Example

/-- The upper case of the one letter beyond ASCII in the titles below. -/
def upperAccent (c : Char) : Char := if c = 'é' then 'É' else c

/-- A title whose description begins with a letter of two bytes loses the first of them. -/
theorem accent_broken : valid (lit "feat: élan") = true ∧
    stripConventionalPrefix Tables.plain upperAccent (lit "feat: élan") = [0xEF,0xBF,0xBD,0xA9] ++ lit "lan" ∧
    ¬ KeepsText Tables.plain upperAccent (lit "feat: élan") := by
  have hstrip : stripConventionalPrefix Tables.plain upperAccent (lit "feat: élan") =
      [0xEF,0xBF,0xBD,0xA9] ++ lit "lan" := by decide +kernel
  refine ⟨by decide +kernel,hstrip,fun h => ?_⟩
  have hvalid := h.valid
  rw [hstrip] at hvalid
  exact absurd hvalid (by decide +kernel)

theorem accent_kept : KeepsText Tables.plain upperAccent (lit "Fix: café") :=
  (stripConventionalPrefix_keeps_iff (by decide +kernel)).mpr (Or.inr ⟨lit "fix: ",by decide +kernel⟩)

/-- A dotted capital is the one rune beyond ASCII in the title below, and its lower case is ASCII. -/
def dottedTables : Tables where
  lower c := if c = 'İ' then 'i' else c
  letter c := c = 'İ'
  digit _ := false
  lower_ne_nul c h := by
    split
    · decide
    · rintro rfl
      exact absurd h (by decide)

-- the cut falls one byte short of the letters that were matched
example : stripConventionalPrefix dottedTables upperAccent (lit "fİx: abc") = lit " abc" := by decide +kernel

end Example

end ReleaseDocs
