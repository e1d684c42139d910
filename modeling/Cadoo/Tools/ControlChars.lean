import Cadoo.Lib.Backslashes
import Cadoo.Tools.LlmJson

/-! What the repair of control characters leaves in the string literals of a text. A literal is told by the rule of
JSON: it ends at a quote behind an even number of backslashes. -/
namespace Tools
open Bytes

/-- Every quote in the text is escaped. -/
def Unended (body : Bytes) : Prop := ∀ u v, body = u ++ 34 :: v → Odd (slashes u)

/-- A text with the parts outside of its literals and the bodies of the literals. The last one may be left open. -/
inductive Layout : Bytes → List Bytes → List Bytes → Prop
  | outside {t : Bytes} (ht : 34 ∉ t) : Layout t [t] []
  | unclosed {t body : Bytes} (ht : 34 ∉ t) (hbody : Unended body) : Layout (t ++ 34 :: body) [t] [body]
  | literal {t body s : Bytes} {outs bodies : List Bytes} (ht : 34 ∉ t) (hbody : Unended body)
      (heven : Even (slashes body)) (hs : Layout s outs bodies) :
      Layout (t ++ 34 :: (body ++ 34 :: s)) (t :: outs) (body :: bodies)

/-- The bytes outside of the literals are kept, no control character is left in a literal, and nothing is left to do. -/
def Repaired (s : Bytes) : Prop := ∃ outs bodies bodies', Layout s outs bodies ∧
  Layout (escapeControlCharsInStrings s) outs bodies' ∧ (∀ body ∈ bodies', ∀ b ∈ body, ¬ b < 32) ∧
  escapeControlCharsInStrings (escapeControlCharsInStrings s) = escapeControlCharsInStrings s

/-- No control character of a literal stands right behind an odd number of backslashes. -/
def Unmasked (s : Bytes) : Prop := ∀ outs bodies, Layout s outs bodies →
  ∀ body ∈ bodies, ∀ u c v, body = u ++ c :: v → c < 32 → Even (slashes u)

section Reading

/-- A quote only behind a backslash. -/
def QuoteBehind (e : Bool) (c : UInt8) : Prop := c = 34 → e = true

lemma unended_iff {body : Bytes} : Unended body ↔ Throughout QuoteBehind false body := by
  constructor
  · rintro h u c v hbody rfl
    exact (behind_iff u).mpr (h u v hbody)
  · exact fun h u v hbody => (behind_iff u).mp (h u 34 v hbody rfl)

/-- A literal goes on to the end, or there is a quote that ends it. -/
lemma exists_end (e : Bool) (s : Bytes) : Throughout QuoteBehind e s ∨
    ∃ body rest, s = body ++ 34 :: rest ∧ Throughout QuoteBehind e body ∧ behind e body = false := by
  induction s generalizing e with
  | nil => exact .inl throughout_nil
  | cons c s ih =>
    by_cases hquote : c = 34 ∧ e = false
    · obtain ⟨rfl,rfl⟩ := hquote
      exact .inr ⟨[],s,rfl,throughout_nil,rfl⟩
    · have hc : QuoteBehind e c := fun hc => Bool.of_not_eq_false fun he => hquote ⟨hc,he⟩
      rcases ih (c == 92 && !e) with hs | ⟨body,rest,rfl,hbody,heven⟩
      · exact .inl (throughout_cons.mpr ⟨hc,hs⟩)
      · exact .inr ⟨c :: body,rest,rfl,throughout_cons.mpr ⟨hc,hbody⟩,heven⟩

/-- Every text is laid out in parts and literals. -/
lemma exists_layout (s : Bytes) : ∃ outs bodies, Layout s outs bodies := by
  induction h : s.length using Nat.strong_induction_on generalizing s with
  | h n ih =>
    by_cases hquote : 34 ∈ s
    · obtain ⟨t,rest,rfl,ht⟩ := List.eq_append_cons_of_mem hquote
      rcases exists_end false rest with hrest | ⟨body,after,rfl,hbody,heven⟩
      · exact ⟨[t],[rest],.unclosed ht (unended_iff.mpr hrest)⟩
      · obtain ⟨outs,bodies,hafter⟩ := ih after.length (by
          rw [← h]
          simp only [List.length_append,List.length_cons]
          omega) after rfl
        exact ⟨t :: outs,body :: bodies,
          .literal ht (unended_iff.mpr hbody) ((behind_eq_false_iff body).mp heven) hafter⟩
    · exact ⟨[s],[],.outside hquote⟩

/-- A literal that a quote ends does not go on behind it. -/
lemma not_unended {body s : Bytes} (heven : Even (slashes body)) : ¬ Unended (body ++ 34 :: s) := fun h =>
  Nat.not_even_iff_odd.mpr (h body s rfl) heven

/-- A literal has one end. -/
lemma end_unique {body body' s s' : Bytes} (hbody : Unended body) (heven : Even (slashes body))
    (hbody' : Unended body') (heven' : Even (slashes body')) (h : body ++ 34 :: s = body' ++ 34 :: s') :
    body = body' ∧ s = s' := by
  rcases append_eq_append_cons h with ⟨g,rfl,-⟩ | ⟨g,rfl,hs⟩
  · exact absurd hbody (not_unended heven')
  · cases g with
    | nil => exact ⟨(List.append_nil _).symm,(List.cons_eq_cons.mp hs).2⟩
    | cons b g =>
      obtain ⟨rfl,-⟩ := List.cons_eq_cons.mp hs
      exact absurd hbody' (not_unended heven)

/-- How a text with a literal is laid out. -/
lemma layout_cases {t rest : Bytes} {outs bodies : List Bytes} (ht : 34 ∉ t)
    (h : Layout (t ++ 34 :: rest) outs bodies) : (outs = [t] ∧ bodies = [rest] ∧ Unended rest) ∨
    ∃ body s outs' bodies', rest = body ++ 34 :: s ∧ outs = t :: outs' ∧ bodies = body :: bodies' ∧ Unended body ∧
      Even (slashes body) ∧ Layout s outs' bodies' := by
  generalize heq : t ++ 34 :: rest = s at h
  cases h with
  | outside ht' => exact absurd (by rw [← heq]; simp) ht'
  | @unclosed t' body ht' hbody =>
    obtain rfl := append_cons_front ht ht' heq
    obtain ⟨-,rfl⟩ := List.cons_eq_cons.mp (List.append_cancel_left heq)
    exact .inl ⟨rfl,rfl,hbody⟩
  | @literal t' body s outs' bodies' ht' hbody heven hs =>
    obtain rfl := append_cons_front ht ht' heq
    obtain ⟨-,rfl⟩ := List.cons_eq_cons.mp (List.append_cancel_left heq)
    exact .inr ⟨body,s,outs',bodies',rfl,rfl,rfl,hbody,heven,hs⟩

/-- The layout of a text is its own. -/
lemma layout_unique {s : Bytes} {outs outs' bodies bodies' : List Bytes} (h : Layout s outs bodies)
    (h' : Layout s outs' bodies') : outs = outs' ∧ bodies = bodies' := by
  induction h generalizing outs' bodies' with
  | outside ht =>
    cases h' with
    | outside _ => exact ⟨rfl,rfl⟩
    | unclosed _ _ => exact absurd (by simp) ht
    | literal _ _ _ _ => exact absurd (by simp) ht
  | unclosed ht hbody =>
    rcases layout_cases ht h' with ⟨rfl,rfl,-⟩ | ⟨body,s,outs,bodies,rfl,-,-,-,heven,-⟩
    · exact ⟨rfl,rfl⟩
    · exact absurd hbody (not_unended heven)
  | literal ht hbody heven hs ih =>
    rcases layout_cases ht h' with ⟨-,-,hrest⟩ | ⟨body,s,outs,bodies,hrest,rfl,rfl,hbody',heven',hs'⟩
    · exact absurd hrest (not_unended heven)
    · obtain ⟨rfl,rfl⟩ := end_unique hbody heven hbody' heven' hrest
      obtain ⟨rfl,rfl⟩ := ih hs'
      exact ⟨rfl,rfl⟩

end Reading

section Mending

/-- What the loop makes of a literal. -/
def mend : Bool → Bytes → Bytes
  | _, [] => []
  | e, c :: s => (if e = false ∧ c < 32 then controlEscape c else [c]) ++ mend (c == 92 && !e) s

/-- A control character only where it does not stand behind a backslash. -/
def ControlFree (e : Bool) (c : UInt8) : Prop := c < 32 → e = false

/-- The escape of a control character is read as one, and left alone. -/
lemma controlEscape_spec {c : UInt8} (h : c < 32) : behind false (controlEscape c) = false ∧
    (∀ b ∈ controlEscape c, b ≠ 34 ∧ ¬ b < 32) ∧ mend false (controlEscape c) = controlEscape c := by
  have hall : ∀ c : UInt8, c < 32 → behind false (controlEscape c) = false ∧
      List.all (controlEscape c) (fun b => b ≠ 34 ∧ ¬ b < 32) = true ∧ mend false (controlEscape c) = controlEscape c :=
    forall_control (by decide +kernel)
  obtain ⟨hbehind,hplain,hagain⟩ := hall c h
  exact ⟨hbehind,forall_of_all hplain,hagain⟩

lemma mend_append (e : Bool) (s t : Bytes) : mend e (s ++ t) = mend e s ++ mend (behind e s) t := by
  induction s generalizing e with
  | nil => rfl
  | cons c s ih => rw [List.cons_append,mend,mend,ih,behind_cons,List.append_assoc]

/-- A reader is not behind a backslash after a control character. -/
lemma behind_control {c : UInt8} (h : c < 32) (e : Bool) : (c == 92 && !e) = false := by
  have hne : c ≠ 92 := by
    rintro rfl
    exact absurd h (by decide)
  rw [beq_eq_false_iff_ne.mpr hne,Bool.false_and]

lemma escapeFrom_cons {e : Bool} {c : UInt8} (h : QuoteBehind e c) (s : Bytes) : escapeFrom true e (c :: s) =
    (if e = false ∧ c < 32 then controlEscape c else [c]) ++ escapeFrom true (c == 92 && !e) s := by
  cases e with
  | true =>
    rw [escapeFrom,if_neg fun hc => Bool.noConfusion hc.1,Bool.not_true,Bool.and_false]
    rfl
  | false =>
    have hquote : c ≠ 34 := fun hc => Bool.false_ne_true (h hc)
    rw [escapeFrom]
    by_cases hslash : c = 92
    · rw [if_pos hslash,hslash]
      rfl
    · rw [if_neg hslash,if_neg hquote,beq_eq_false_iff_ne.mpr hslash]
      by_cases hcontrol : c < 32
      · rw [if_pos hcontrol,if_pos ⟨rfl,hcontrol⟩]
        rfl
      · rw [if_neg hcontrol,if_neg fun hc => hcontrol hc.2]
        rfl

/-- The loop goes through a literal and on behind it. -/
lemma escapeFrom_append {e : Bool} {body : Bytes} (h : Throughout QuoteBehind e body) (s : Bytes) :
    escapeFrom true e (body ++ s) = mend e body ++ escapeFrom true (behind e body) s := by
  induction body generalizing e with
  | nil => rfl
  | cons c body ih =>
    obtain ⟨hc,hbody⟩ := throughout_cons.mp h
    rw [List.cons_append,escapeFrom_cons hc,ih hbody,mend,behind_cons,List.append_assoc]

/-- A mended literal ends where the literal did, and mending it again does nothing. -/
lemma mend_spec {e : Bool} {body : Bytes} (h : Throughout QuoteBehind e body) :
    behind e (mend e body) = behind e body ∧ Throughout QuoteBehind e (mend e body) ∧
      mend e (mend e body) = mend e body := by
  induction body generalizing e with
  | nil => exact ⟨rfl,throughout_nil,rfl⟩
  | cons c body ih =>
    obtain ⟨hc,hbody⟩ := throughout_cons.mp h
    obtain ⟨hbehind,hquotes,hagain⟩ := ih hbody
    by_cases hcontrol : e = false ∧ c < 32
    · obtain ⟨rfl,hlt⟩ := hcontrol
      obtain ⟨hreader,hbytes,hword⟩ := controlEscape_spec hlt
      rw [behind_control hlt] at hbehind hquotes hagain
      rw [mend,if_pos ⟨rfl,hlt⟩,behind_control hlt,behind_append,behind_cons,behind_control hlt,hreader,
        throughout_append,hreader,mend_append,hword,hreader,hagain]
      refine ⟨hbehind,⟨fun u d v hd hq => ?_,hquotes⟩,rfl⟩
      exact absurd hq (hbytes d (by rw [hd]; simp)).1
    · rw [mend,if_neg hcontrol,List.singleton_append,behind_cons,behind_cons,throughout_cons,mend,if_neg hcontrol,hagain]
      exact ⟨hbehind,⟨hc,hquotes⟩,rfl⟩

/-- A mended literal has the control characters that stood behind a backslash. -/
lemma mend_clean {e : Bool} {body : Bytes} :
    (∀ b ∈ mend e body, ¬ b < 32) ↔ Throughout ControlFree e body := by
  induction body generalizing e with
  | nil => exact iff_of_true (List.forall_mem_nil _) throughout_nil
  | cons c body ih =>
    rw [mend,List.forall_mem_append,ih,throughout_cons]
    refine and_congr_left fun _ => ?_
    by_cases hcontrol : e = false ∧ c < 32
    · rw [if_pos hcontrol]
      exact iff_of_true (fun b hb => ((controlEscape_spec hcontrol.2).2.1 b hb).2) fun _ => hcontrol.1
    · rw [if_neg hcontrol,List.forall_mem_singleton]
      constructor
      · exact fun hc hlt => absurd hlt hc
      · exact fun hc hlt => hcontrol ⟨hc hlt,hlt⟩

end Mending

section Layouts

/-- Outside of literals nothing is changed. -/
lemma escapeFrom_outside {t : Bytes} (ht : 34 ∉ t) (s : Bytes) :
    escapeFrom false false (t ++ s) = t ++ escapeFrom false false s := by
  induction t with
  | nil => rfl
  | cons c t ih =>
    rw [List.mem_cons,not_or] at ht
    rw [List.cons_append,escapeFrom,beq_eq_false_iff_ne.mpr (Ne.symm ht.1),ih ht.2]
    rfl

lemma escape_outside {t : Bytes} (ht : 34 ∉ t) : escapeControlCharsInStrings t = t := by
  have h := escapeFrom_outside ht []
  rwa [List.append_nil,escapeFrom,List.append_nil] at h

lemma escape_unclosed {t body : Bytes} (ht : 34 ∉ t) (hbody : Throughout QuoteBehind false body) :
    escapeControlCharsInStrings (t ++ 34 :: body) = t ++ 34 :: mend false body := by
  have h := escapeFrom_append hbody []
  rw [List.append_nil,escapeFrom,List.append_nil] at h
  rw [escapeControlCharsInStrings,escapeFrom_outside ht,← h]
  rfl

lemma escape_literal {t body : Bytes} (ht : 34 ∉ t) (hbody : Throughout QuoteBehind false body)
    (heven : behind false body = false) (s : Bytes) :
    escapeControlCharsInStrings (t ++ 34 :: (body ++ 34 :: s)) =
      t ++ 34 :: (mend false body ++ 34 :: escapeControlCharsInStrings s) := by
  have h := escapeFrom_append hbody (34 :: s)
  rw [heven] at h
  rw [escapeControlCharsInStrings,escapeFrom_outside ht]
  exact congrArg (fun r => t ++ 34 :: r) h

/-- The repair keeps the layout of a text and mends its literals, and leaves nothing to do. -/
lemma layout_escape {s : Bytes} {outs bodies : List Bytes} (h : Layout s outs bodies) :
    Layout (escapeControlCharsInStrings s) outs (bodies.map (mend false)) ∧
      escapeControlCharsInStrings (escapeControlCharsInStrings s) = escapeControlCharsInStrings s := by
  induction h with
  | outside ht =>
    rw [escape_outside ht,escape_outside ht]
    exact ⟨.outside ht,rfl⟩
  | unclosed ht hbody =>
    rw [unended_iff] at hbody
    obtain ⟨-,hquotes,hagain⟩ := mend_spec hbody
    rw [escape_unclosed ht hbody,escape_unclosed ht hquotes,hagain]
    exact ⟨.unclosed ht (unended_iff.mpr hquotes),rfl⟩
  | literal ht hbody heven hs ih =>
    rw [unended_iff] at hbody
    rw [← behind_eq_false_iff] at heven
    obtain ⟨hbehind,hquotes,hagain⟩ := mend_spec hbody
    obtain ⟨hlayout,hdone⟩ := ih
    have heven' := hbehind.trans heven
    rw [escape_literal ht hbody heven,escape_literal ht hquotes heven',hagain,hdone]
    exact ⟨.literal ht (unended_iff.mpr hquotes) ((behind_eq_false_iff _).mp heven') hlayout,rfl⟩

end Layouts

lemma clean_iff {body : Bytes} : (∀ b ∈ mend false body, ¬ b < 32) ↔
    ∀ u c v, body = u ++ c :: v → c < 32 → Even (slashes u) := by
  rw [mend_clean]
  refine forall_congr' fun u => forall_congr' fun c => forall_congr' fun v => imp_congr_right fun _ => ?_
  exact imp_congr_right fun _ => behind_eq_false_iff u

/-- The repair leaves a control character in a literal just when one stands behind a backslash there; all else it
does as it should. -/
theorem repaired_iff (s : Bytes) : Repaired s ↔ Unmasked s := by
  obtain ⟨outs,bodies,hlayout⟩ := exists_layout s
  obtain ⟨hmended,hdone⟩ := layout_escape hlayout
  have hclean : (∀ body ∈ bodies.map (mend false), ∀ b ∈ body, ¬ b < 32) ↔
      ∀ body ∈ bodies, ∀ u c v, body = u ++ c :: v → c < 32 → Even (slashes u) := by
    rw [List.forall_mem_map]
    exact forall_congr' fun body => imp_congr_right fun _ => clean_iff
  constructor
  · rintro ⟨outs',bodies₁,bodies₂,-,h₂,hfree,-⟩ outs'' bodies'' h
    obtain ⟨-,rfl⟩ := layout_unique hlayout h
    obtain ⟨-,rfl⟩ := layout_unique hmended h₂
    exact hclean.mp hfree
  · exact fun h => ⟨outs,bodies,_,hlayout,hmended,hclean.mpr (h outs bodies hlayout),hdone⟩

lemma unended_of_notMem {body : Bytes} (h : 34 ∉ body) : Unended body := fun u v hbody =>
  absurd (by rw [hbody]; simp) h

/-- A command that goes on behind a backslash and a line break. -/
def continuedLine : Bytes := lit "\x7b\"run\":\"make \\\nall\"\x7d"

lemma continuedLine_layout :
    Layout continuedLine [lit "\x7b",lit ":",lit "\x7d"] [lit "run",lit "make \\\nall"] := by
  have hslashes : Even (slashes (lit "run")) ∧ Even (slashes (lit "make \\\nall")) := by decide +kernel
  exact .literal (by decide) (unended_of_notMem (by decide)) hslashes.1 (.literal (by decide)
    (unended_of_notMem (by decide)) hslashes.2 (.outside (by decide)))

/-- The line break stays raw. -/
theorem continued_line_unrepaired : escapeControlCharsInStrings continuedLine = continuedLine ∧
    ¬ Repaired continuedLine := by
  have hsame : escapeControlCharsInStrings continuedLine = continuedLine := by decide +kernel
  refine ⟨hsame,?_⟩
  rintro ⟨outs,bodies,bodies',-,hlayout,hfree,-⟩
  rw [hsame] at hlayout
  obtain ⟨-,rfl⟩ := layout_unique continuedLine_layout hlayout
  exact hfree (lit "make \\\nall") (by simp) 10 (by decide +kernel) (by decide)

end Tools
