import Cadoo.ReleaseDocs.ChangeModel

/-! Messages by the grammar of conventional commits, and the sections they are put under. A scope is not read, and
only features and fixes are breaking by their mark. -/
namespace ReleaseDocs
open Bytes Utf8

def SmallLetter (b : UInt8) : Prop := 97 ≤ b ∧ b ≤ 122

instance : DecidablePred SmallLetter := fun _ => inferInstanceAs (Decidable (_ ∧ _))

/-- The first line of a conventional commit. -/
structure Header where
  kind : Bytes
  scope : Option Bytes := none
  breaking : Bool := false
  description : Bytes
  kind_ne : kind ≠ []
  kind_small : ∀ b ∈ kind, SmallLetter b
  scope_line : ∀ s ∈ scope, newline ∉ s
  description_line : newline ∉ description

namespace Header
variable (h : Header)

/-- What follows the type. -/
def rest : Bytes :=
  h.scope.elim [] (fun s => 40 :: (s ++ [41])) ++ ((if h.breaking then [33] else []) ++ (lit ": " ++ h.description))

def text : Bytes := h.kind ++ h.rest

/-- A header with a body and footers, or without. -/
def message (body : Option Bytes) : Bytes := h.text ++ body.elim [] (newline :: ·)

/-- The section of a type that breaks nothing. -/
def plainSection : Bytes :=
  if h.kind = lit "feat" then lit "Features"
  else if h.kind = lit "fix" then lit "Bug Fixes"
  else if h.kind = lit "perf" then lit "Performance"
  else []

/-- A message is classified by its type, but for breaking changes. -/
def Classified (body : Option Bytes) (isBreaking : Prop) (plain : Bytes) : Prop :=
  (classifyCommit (h.message body) = lit "Breaking Changes" ↔ isBreaking) ∧
    (¬ isBreaking → classifyCommit (h.message body) = plain)

/-- A change is breaking by the mark in the header or by a line of the body. -/
def BreakingByGrammar (body : Option Bytes) : Prop :=
  h.breaking = true ∨ ∃ b ∈ body, ∃ line ∈ b.splitOn newline, lit "BREAKING CHANGE:" <+: line

/-- A change is breaking by the mark after a bare type that has one, or by the body. -/
def BreakingHere (body : Option Bytes) : Prop :=
  (h.breaking = true ∧ h.scope = none ∧ (h.kind = lit "feat" ∨ h.kind = lit "fix")) ∨
    ∃ b ∈ body, lit "BREAKING CHANGE:" <:+: b

end Header

section Words
variable {α : Type} {Q : α → Prop} {w t p r : List α}

/-- Words are told apart by what ends them. -/
lemma word_prefix_iff (hw : ∀ a ∈ w, Q a) (ht : ∀ a ∈ t, Q a) (hne : p ≠ []) (hp : ∀ a ∈ p.head?, ¬ Q a)
    (hr : ∀ a ∈ r.head?, ¬ Q a) : w ++ p <+: t ++ r ↔ w = t ∧ p <+: r := by
  induction w generalizing t with
  | nil =>
    cases t with
    | nil => exact (and_iff_right rfl).symm
    | cons a t =>
      refine iff_of_false ?_ fun h => nomatch h.1
      obtain ⟨b,p,rfl⟩ := List.exists_cons_of_ne_nil hne
      intro h
      obtain ⟨rfl,-⟩ := List.cons_prefix_cons.mp h
      exact hp b rfl (ht b List.mem_cons_self)
  | cons a w ih =>
    obtain ⟨ha,hw⟩ := List.forall_mem_cons.mp hw
    cases t with
    | nil =>
      refine iff_of_false ?_ fun h => nomatch h.1
      rintro ⟨rest,h⟩
      refine hr a ?_ ha
      rw [List.nil_append] at h
      rw [← h]
      rfl
    | cons b t =>
      obtain ⟨hb,ht⟩ := List.forall_mem_cons.mp ht
      rw [List.cons_append,List.cons_append,List.cons_prefix_cons,ih hw ht,List.cons_eq_cons,and_assoc]

end Words

namespace Header
variable (h : Header)

lemma rest_head {b : UInt8} (hb : b ∈ h.rest.head?) : ¬ SmallLetter b := by
  have hlit : lit ": " = [58,32] := by decide
  rw [rest,hlit] at hb
  cases hscope : h.scope with
  | some s =>
    rw [hscope] at hb
    obtain rfl := Option.some.inj hb
    decide
  | none =>
    rw [hscope] at hb
    cases hbreaking : h.breaking with
    | true =>
      rw [hbreaking] at hb
      obtain rfl := Option.some.inj hb
      decide
    | false =>
      rw [hbreaking] at hb
      obtain rfl := Option.some.inj hb
      decide

/-- A bare type is followed by a colon, or by a mark and a colon. -/
lemma rest_iff (mark : Bool) : (if mark then [33] else []) ++ [58] <+: h.rest ↔
    h.scope = none ∧ h.breaking = mark := by
  have hlit : lit ": " = [58,32] := by decide
  rw [rest,hlit]
  cases h.scope with
  | some s =>
    refine iff_of_false ?_ fun hall => nomatch hall.1
    cases mark with
    | true => exact fun hpre => absurd (List.cons_prefix_cons.mp hpre).1 (by decide)
    | false => exact fun hpre => absurd (List.cons_prefix_cons.mp hpre).1 (by decide)
  | none =>
    rw [and_iff_right rfl]
    cases h.breaking with
    | true =>
      cases mark with
      | true => exact iff_of_true ⟨32 :: h.description,rfl⟩ rfl
      | false => exact iff_of_false (fun hpre => absurd (List.cons_prefix_cons.mp hpre).1 (by decide)) (by decide)
    | false =>
      cases mark with
      | true => exact iff_of_false (fun hpre => absurd (List.cons_prefix_cons.mp hpre).1 (by decide)) (by decide)
      | false => exact iff_of_true ⟨32 :: h.description,rfl⟩ rfl

lemma text_line : newline ∉ h.text := by
  intro hmem
  have hlit : newline ∉ lit ": " := by decide
  rw [text,List.mem_append] at hmem
  rcases hmem with hmem | hmem
  · exact absurd (h.kind_small _ hmem) (by decide)
  rw [rest,List.mem_append] at hmem
  rcases hmem with hmem | hmem
  · cases hscope : h.scope with
    | none =>
      rw [hscope] at hmem
      cases hmem
    | some s =>
      rw [hscope,Option.elim_some,List.mem_cons,List.mem_append,List.mem_singleton] at hmem
      rcases hmem with hmem | hmem | hmem
      · exact absurd hmem (by decide)
      · exact h.scope_line s hscope hmem
      · exact absurd hmem (by decide)
  rcases List.mem_append.mp hmem with hmem | hmem
  · split at hmem
    · exact absurd (List.mem_singleton.mp hmem) (by decide)
    · cases hmem
  rcases List.mem_append.mp hmem with hmem | hmem
  · exact hlit hmem
  · exact h.description_line hmem

lemma cut_message (body : Option Bytes) : cut (h.message body) [newline] = body.map (h.text,·) := by
  rw [message]
  cases body with
  | none =>
    rw [Option.elim_none,List.append_nil,cut_eq_none_of_notMem h.text_line]
    rfl
  | some b =>
    rw [Option.elim_some,cut_append_cons h.text_line]
    rfl

lemma subject_message (body : Option Bytes) : commitSubject (h.message body) = trimSpace h.text := by
  rw [commitSubject,cut_message]
  cases body with
  | none => rw [message,Option.elim_none,List.append_nil]; rfl
  | some b => rfl

/-- The subject begins with a bare type just when the header has this type, no scope, and the mark asked for. -/
lemma hasPrefix_subject (body : Option Bytes) {w : Bytes} (hw : ∀ b ∈ w, SmallLetter b) (mark : Bool) :
    hasPrefix (commitSubject (h.message body)) (w ++ ((if mark then [33] else []) ++ [58])) = true ↔
      h.kind = w ∧ h.scope = none ∧ h.breaking = mark := by
  have hletter : ∀ b, SmallLetter b → 32 < b ∧ b < 128 := fun b hb =>
    ⟨UInt8.lt_of_lt_of_le (by decide) hb.1,UInt8.lt_of_le_of_lt hb.2 (by decide)⟩
  have hcolon : ∀ b ∈ (if mark then [33] else []) ++ [(58 : UInt8)], 32 < b ∧ b < 128 := by
    cases mark with
    | true => exact forall_of_all (by decide)
    | false => exact forall_of_all (by decide)
  have hstart : ∀ b ∈ ((if mark then [33] else []) ++ [(58 : UInt8)]).head?, ¬ SmallLetter b := by
    cases mark with
    | true => rintro b ⟨⟩; decide
    | false => rintro b ⟨⟩; decide
  have hpattern : ∀ b ∈ w ++ ((if mark then [33] else []) ++ [58]), 32 < b ∧ b < 128 := fun b hb =>
    (List.mem_append.mp hb).elim (fun hb => hletter b (hw b hb)) (hcolon b)
  have htext : ∀ b ∈ h.text.head?, 32 < b ∧ b < 128 := by
    obtain ⟨c,cs,hc⟩ := List.exists_cons_of_ne_nil h.kind_ne
    intro b hb
    rw [text,hc] at hb
    obtain rfl := Option.some.inj hb
    exact hletter c (h.kind_small c (by rw [hc]; exact List.mem_cons_self))
  rw [subject_message,hasPrefix,List.isPrefixOf_iff_prefix,prefix_trimSpace hpattern htext,text,
    word_prefix_iff hw h.kind_small (by simp) hstart fun b => h.rest_head,rest_iff,eq_comm]

/-- The body is searched for the words of a breaking change, wherever they stand in it. -/
lemma classifyCommit_message (body : Option Bytes) : classifyCommit (h.message body) =
    if body.any (contains · (lit "BREAKING CHANGE:")) then lit "Breaking Changes"
    else if hasPrefix (commitSubject (h.message body)) (lit "feat!:") ||
      hasPrefix (commitSubject (h.message body)) (lit "fix!:") then lit "Breaking Changes"
    else if hasPrefix (commitSubject (h.message body)) (lit "feat:") then lit "Features"
    else if hasPrefix (commitSubject (h.message body)) (lit "fix:") then lit "Bug Fixes"
    else if hasPrefix (commitSubject (h.message body)) (lit "perf:") then lit "Performance"
    else [] := by
  rw [classifyCommit,cut_message]
  cases body with
  | none => rfl
  | some b => rfl

lemma body_breaking {body : Option Bytes} : body.any (contains · (lit "BREAKING CHANGE:")) = true ↔
    ∃ b ∈ body, lit "BREAKING CHANGE:" <:+: b := by
  cases body with
  | none => exact iff_of_false Bool.false_ne_true fun ⟨_,hb,_⟩ => nomatch hb
  | some b =>
    rw [Option.any_some,contains,decide_eq_true_iff]
    exact ⟨fun hb => ⟨b,rfl,hb⟩,fun ⟨_,hb,hwithin⟩ => Option.some.inj hb ▸ hwithin⟩

/-- A bare type with a mark in front of the colon, or without. -/
lemma hasPrefix_types (body : Option Bytes) :
    (hasPrefix (commitSubject (h.message body)) (lit "feat!:") || hasPrefix (commitSubject (h.message body))
      (lit "fix!:")) = true ↔ h.breaking = true ∧ h.scope = none ∧ (h.kind = lit "feat" ∨ h.kind = lit "fix") := by
  have hlits : lit "feat!:" = lit "feat" ++ ((if true then [33] else []) ++ [58]) ∧
      lit "fix!:" = lit "fix" ++ ((if true then [33] else []) ++ [58]) := by
    decide
  have hsmall : (∀ b ∈ lit "feat", SmallLetter b) ∧ ∀ b ∈ lit "fix", SmallLetter b :=
    ⟨forall_of_all (by decide),forall_of_all (by decide)⟩
  rw [hlits.1,hlits.2,Bool.or_eq_true,h.hasPrefix_subject body hsmall.1,h.hasPrefix_subject body hsmall.2]
  constructor
  · rintro (⟨hkind,hscope,hmark⟩ | ⟨hkind,hscope,hmark⟩)
    · exact ⟨hmark,hscope,.inl hkind⟩
    · exact ⟨hmark,hscope,.inr hkind⟩
  · rintro ⟨hmark,hscope,hkind | hkind⟩
    · exact .inl ⟨hkind,hscope,hmark⟩
    · exact .inr ⟨hkind,hscope,hmark⟩

lemma classifyCommit_breaking {body : Option Bytes} (hb : h.BreakingHere body) :
    classifyCommit (h.message body) = lit "Breaking Changes" := by
  rw [classifyCommit_message]
  rcases hb with hb | hb
  · rw [if_pos ((h.hasPrefix_types body).mpr hb),ite_self]
  · exact if_pos (body_breaking.mpr hb)

lemma classifyCommit_plain {body : Option Bytes} (hb : ¬ h.BreakingHere body) :
    classifyCommit (h.message body) = if h.scope = none ∧ h.breaking = false then h.plainSection else [] := by
  obtain ⟨hmark,hbody⟩ := not_or.mp hb
  have hlits : lit "feat:" = lit "feat" ++ ((if false then [33] else []) ++ [58]) ∧
      lit "fix:" = lit "fix" ++ ((if false then [33] else []) ++ [58]) ∧
      lit "perf:" = lit "perf" ++ ((if false then [33] else []) ++ [58]) := by
    decide
  have hsmall : (∀ b ∈ lit "feat", SmallLetter b) ∧ (∀ b ∈ lit "fix", SmallLetter b) ∧
      ∀ b ∈ lit "perf", SmallLetter b :=
    ⟨forall_of_all (by decide),forall_of_all (by decide),forall_of_all (by decide)⟩
  have hfeat := h.hasPrefix_subject body hsmall.1 false
  have hfix := h.hasPrefix_subject body hsmall.2.1 false
  have hperf := h.hasPrefix_subject body hsmall.2.2 false
  rw [← hlits.1] at hfeat
  rw [← hlits.2.1] at hfix
  rw [← hlits.2.2] at hperf
  rw [classifyCommit_message,if_neg (mt body_breaking.mp hbody),if_neg (mt (h.hasPrefix_types body).mp hmark)]
  by_cases hbare : h.scope = none ∧ h.breaking = false
  · rw [if_pos hbare,plainSection]
    simp only [hfeat,hfix,hperf,hbare,and_self,and_true]
  · rw [if_neg hbare,if_neg fun hp => hbare (hfeat.mp hp).2,if_neg fun hp => hbare (hfix.mp hp).2,
      if_neg fun hp => hbare (hperf.mp hp).2]

/-- The sections are those of bare types: a scope, or a mark on another type, leaves a change without one, and a
change is breaking by a marked feature or fix or by the words in the body. -/
theorem classified_bare (body : Option Bytes) :
    h.Classified body (h.BreakingHere body) (if h.scope = none ∧ h.breaking = false then h.plainSection else []) := by
  refine ⟨⟨fun hsection => ?_,h.classifyCommit_breaking⟩,h.classifyCommit_plain⟩
  by_contra hb
  rw [h.classifyCommit_plain hb] at hsection
  have hother : [] ≠ lit "Breaking Changes" ∧ lit "Features" ≠ lit "Breaking Changes" ∧
      lit "Bug Fixes" ≠ lit "Breaking Changes" ∧ lit "Performance" ≠ lit "Breaking Changes" := by
    decide
  split at hsection
  · rw [plainSection] at hsection
    split at hsection
    · exact hother.2.1 hsection
    split at hsection
    · exact hother.2.2.1 hsection
    split at hsection
    · exact hother.2.2.2 hsection
    · exact hother.1 hsection
  · exact hother.1 hsection

end Header

section Example

/-- A feature with a scope, and the same one marked as breaking. -/
def scopedFeature (breaking : Bool) : Header where
  kind := lit "feat"
  scope := some (lit "api")
  breaking := breaking
  description := lit "add paging"
  kind_ne := by decide
  kind_small := forall_of_all (by decide)
  scope_line := by
    rintro s ⟨⟩
    decide
  description_line := by decide

/-- A change of the documentation, which breaks nothing. -/
def plainDocs : Header where
  kind := lit "docs"
  description := lit "explain the footer"
  kind_ne := by decide
  kind_small := forall_of_all (by decide)
  scope_line := fun _ hs => by cases hs
  description_line := by decide

/-- A scope hides a feature and a breaking change, and the words of the footer break a change from within a line. -/
theorem grammar_not_followed :
    (scopedFeature false).text = lit "feat(api): add paging" ∧
      ¬ (scopedFeature false).Classified none ((scopedFeature false).BreakingByGrammar none)
        (scopedFeature false).plainSection ∧
      ¬ (scopedFeature true).Classified none ((scopedFeature true).BreakingByGrammar none)
        (scopedFeature true).plainSection ∧
      ¬ plainDocs.Classified (some (lit "A BREAKING CHANGE: line goes last."))
        (plainDocs.BreakingByGrammar (some (lit "A BREAKING CHANGE: line goes last."))) plainDocs.plainSection := by
  refine ⟨by decide,fun hc => ?_,fun hc => ?_,fun hc => ?_⟩
  · have hnot : ¬ (scopedFeature false).BreakingByGrammar none := by
      rintro (hmark | ⟨b,hb,-⟩)
      · exact absurd hmark (by decide)
      · cases hb
    exact absurd (hc.2 hnot) (by decide)
  · exact absurd (hc.1.mpr (.inl rfl)) (by decide)
  · rcases hc.1.mp (by decide) with hmark | ⟨b,hb,line,hline,hpre⟩
    · exact absurd hmark (by decide)
    · obtain rfl := Option.some.inj hb
      have hlines : (lit "A BREAKING CHANGE: line goes last.").splitOn newline =
          [lit "A BREAKING CHANGE: line goes last."] := by
        decide
      rw [hlines] at hline
      obtain rfl := List.mem_singleton.mp hline
      exact absurd hpre (by decide)

end Example

end ReleaseDocs
