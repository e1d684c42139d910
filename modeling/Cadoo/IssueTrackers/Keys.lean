import Cadoo.Lib.LetterCase
import Cadoo.Lib.Scan

/-! The issues a pull request mentions: keys such as `ENG-123` are searched for in its title and body, and fetched from
the trackers. What a tracker answers is a parameter. -/
namespace IssueTrackers
open Bytes Utf8 Scan Pattern

def isCapital (b : UInt8) : Bool := 65 ≤ b && b ≤ 90
def isDecimal (b : UInt8) : Bool := 48 ≤ b && b ≤ 57
def isTeam (b : UInt8) : Bool := isCapital b || isDecimal b

/-- The bytes of words, for `\b`. -/
def isWord (b : UInt8) : Bool := isTeam b || (97 ≤ b && b ≤ 122) || b = 95

/-- `CommonKeyRe` behind the first letter: more of the team, a dash and a number. -/
def keyRest : Pattern UInt8 := seq (run 1 isTeam) (seq (lit [45]) (run 1 isDecimal))

def CommonKeyRe : Option UInt8 → Bytes → Option ℕ := bounded isWord isCapital keyRest

variable (up : Char → Char)

/-- Of several keys that are the same, the first one is kept. -/
def firsts : List Bytes → List Bytes → List Bytes
  | _,[] => []
  | seen,k :: ks => if k ∈ seen then firsts seen ks else k :: firsts (k :: seen) ks

def ExtractKeys (text : Bytes) : List Bytes := firsts [] ((findAll CommonKeyRe none 0 text).map (toUpper up))

/-- A tracker: a key is looked up, which may fail or find nothing. -/
structure Tracker (Issue : Type) where
  name : Bytes
  fetchOne : Bytes → Except Bytes (Option Issue)

variable {Issue : Type}

def Tracker.issueOf (t : Tracker Issue) (k : Bytes) : Option Issue :=
  match t.fetchOne k with
  | .error _ => none
  | .ok i => i

def Tracker.FindLinked (t : Tracker Issue) (prTitle prBody : Bytes) : List Issue :=
  (ExtractKeys up (prTitle ++ newline :: prBody)).filterMap t.issueOf

/-- All trackers are asked, one after the other. -/
def linkedIssues (ts : List (Tracker Issue)) (prTitle prBody : Bytes) : List Issue :=
  ts.flatMap fun t => t.FindLinked up prTitle prBody

/-- A key: two or more capitals and digits of which the first is a capital, a dash and a number. -/
def IsKey (k : Bytes) : Prop := ∃ c team digits, k = c :: team ++ 45 :: digits ∧ isCapital c = true ∧ team ≠ [] ∧
  (∀ b ∈ team, isTeam b = true) ∧ digits ≠ [] ∧ ∀ b ∈ digits, isDecimal b = true

/-- A key stands between two texts, with no letter, digit or low line next to it. -/
structure Mention (pre k post : Bytes) : Prop where
  key : IsKey k
  left : pre.getLast?.any isWord = false
  right : post.head?.any isWord = false

def Mentions (text k : Bytes) : Prop := ∃ pre post, text = pre ++ (k ++ post) ∧ Mention pre k post

lemma isWord_of_isTeam {b : UInt8} (h : isTeam b = true) : isWord b = true := by
  rw [isWord,h]
  rfl

lemma isTeam_of_isCapital {b : UInt8} (h : isCapital b = true) : isTeam b = true := by
  rw [isTeam,h]
  rfl

lemma isTeam_of_isDecimal {b : UInt8} (h : isDecimal b = true) : isTeam b = true := by
  rw [isTeam,h,Bool.or_true]

lemma not_isCapital_of_isDecimal {b : UInt8} (h : isDecimal b = true) : isCapital b = false := by
  have hall : ∀ b : UInt8, isDecimal b = true → isCapital b = false := forall_byte (by decide +kernel)
  exact hall b h

/-- What the pattern matches, whatever it captures. -/
lemma matches_keyRest {w : Bytes} : (∃ cs, Matches keyRest w cs) ↔ ∃ team digits, w = team ++ 45 :: digits ∧ team ≠ [] ∧
    (∀ b ∈ team, isTeam b = true) ∧ digits ≠ [] ∧ ∀ b ∈ digits, isDecimal b = true := by
  constructor
  · rintro ⟨cs,h⟩
    obtain ⟨team,v,rfl,hteam,hall,hv⟩ := matches_run_seq_iff.mp h
    obtain ⟨digits,rfl,hrun⟩ := matches_lit_seq_iff.mp hv
    obtain ⟨hdigits,hdec,-⟩ := matches_run_iff.mp hrun
    exact ⟨team,digits,rfl,List.length_pos_iff.mp hteam,hall,List.length_pos_iff.mp hdigits,hdec⟩
  · rintro ⟨team,digits,rfl,hteam,hall,hdigits,hdec⟩
    have hlit : Matches (seq (lit [45]) (run 1 isDecimal)) (45 :: digits) [] :=
      matches_lit_seq_iff.mpr ⟨digits,rfl,.run (List.length_pos_iff.mpr hdigits) hdec⟩
    exact ⟨[],matches_run_seq_iff.mpr ⟨team,_,rfl,List.length_pos_iff.mpr hteam,hall,hlit⟩⟩

section Match
variable {prev : Option UInt8} {c : UInt8} {w post : Bytes}

lemma isKey_cons_iff : IsKey (c :: w) ↔ isCapital c = true ∧ ∃ cs, Matches keyRest w cs := by
  rw [matches_keyRest]
  constructor
  · rintro ⟨c',team,digits,heq,hc,hrest⟩
    obtain ⟨rfl,rfl⟩ := List.cons.inj heq
    exact ⟨hc,team,digits,rfl,hrest⟩
  · rintro ⟨hc,team,digits,rfl,hrest⟩
    exact ⟨c,team,digits,rfl,hc,hrest⟩

/-- A key ends with a digit. -/
lemma last_isWord (h : ∃ cs, Matches keyRest w cs) (a : Option UInt8) : (before a w).any isWord = true := by
  obtain ⟨team,digits,rfl,-,-,hne,hdec⟩ := matches_keyRest.mp h
  have hlast : (team ++ 45 :: digits).getLast? = some (digits.getLast hne) := by
    rw [List.getLast?_append,List.getLast?_cons,List.getLast?_eq_getLast_of_ne_nil hne]
    rfl
  rw [before,hlast]
  exact isWord_of_isTeam (isTeam_of_isDecimal (hdec _ (List.getLast_mem hne)))

/-- What the pattern finds between boundaries. -/
lemma bounded_iff : Bounded isWord isCapital keyRest prev c w post ↔
    IsKey (c :: w) ∧ prev.any isWord = false ∧ post.head?.any isWord = false := by
  rw [isKey_cons_iff]
  have hbegins (hc : isCapital c = true) : boundary isWord prev (some c) = !prev.any isWord := by
    rw [boundary,Option.any_some,isWord_of_isTeam (isTeam_of_isCapital hc)]
    cases prev.any isWord <;> rfl
  have hends (hw : ∃ cs, Matches keyRest w cs) : boundary isWord (before (some c) w) post.head? = !post.head?.any isWord := by
    rw [boundary,last_isWord hw]
    cases post.head?.any isWord <;> rfl
  constructor
  · rintro ⟨hc,hw,hb,he⟩
    rw [hbegins hc,Bool.not_eq_true'] at hb
    rw [hends hw,Bool.not_eq_true'] at he
    exact ⟨⟨hc,hw⟩,hb,he⟩
  · rintro ⟨⟨hc,hw⟩,hb,he⟩
    refine ⟨hc,hw,?_,?_⟩
    · rw [hbegins hc,hb]
      rfl
    · rw [hends hw,he]
      rfl

/-- At one place only one key begins. -/
lemma rest_unique {v rest : Bytes} (hw : ∃ cs, Matches keyRest w cs) (hv : ∃ cs, Matches keyRest v cs)
    (hpost : post.head?.any isWord = false) (hrest : rest.head?.any isWord = false) (heq : v ++ rest = w ++ post) :
    v = w := by
  obtain ⟨team,digits,rfl,-,hteam,-,hdigits⟩ := matches_keyRest.mp hw
  obtain ⟨team',digits',rfl,-,hteam',-,hdigits'⟩ := matches_keyRest.mp hv
  have hdash {t : Bytes} (ht : ∀ b ∈ t, isTeam b = true) (r : Bytes) : (t ++ 45 :: r).takeWhile isTeam = t :=
    takeWhile_append_stop ht fun b hb => by obtain rfl := Option.some.inj hb; rfl
  have hstop {d r : Bytes} (hd : ∀ b ∈ d, isDecimal b = true) (hr : r.head?.any isWord = false) :
      (d ++ r).takeWhile isDecimal = d := by
    refine takeWhile_append_stop hd fun b hb => ?_
    rw [Option.mem_def.mp hb] at hr
    refine Bool.eq_false_iff.mpr fun hdec => ?_
    rw [Option.any_some,isWord_of_isTeam (isTeam_of_isDecimal hdec)] at hr
    cases hr
  rw [List.append_assoc,List.append_assoc,List.cons_append,List.cons_append] at heq
  have hteams : team' = team := by
    rw [← hdash hteam' (digits' ++ rest),heq,hdash hteam]
  rw [hteams] at heq
  obtain ⟨-,heq⟩ := List.cons.inj (List.append_cancel_left heq)
  have hnumbers : digits' = digits := by
    rw [← hstop hdigits' hrest,heq,hstop hdigits hpost]
  rw [hteams,hnumbers]

lemma matchAt_iff {pre k : Bytes} : MatchAt CommonKeyRe prev pre k post ↔
    IsKey k ∧ (before prev pre).any isWord = false ∧ post.head?.any isWord = false := by
  constructor
  · rintro ⟨-,hfront⟩
    obtain ⟨c,w,rest,heq,hlen,hfound⟩ := Bounded.of_some hfront
    obtain ⟨rfl,rfl⟩ := List.append_inj heq hlen
    exact bounded_iff.mp hfound
  · rintro ⟨hkey,hleft,hright⟩
    obtain ⟨c,team,digits,rfl,-⟩ := id hkey
    refine ⟨List.cons_ne_nil _ _,Bounded.some (bounded_iff.mpr ⟨hkey,hleft,hright⟩) fun v rest hv heq => ?_⟩
    obtain ⟨hvkey,-,hvright⟩ := bounded_iff.mp hv
    exact rest_unique (isKey_cons_iff.mp hkey).2 (isKey_cons_iff.mp hvkey).2 hright hvright heq

/-- No key begins behind a letter or a digit, and none with what is no capital. -/
lemma keyLength_none {a b : UInt8} (h : isWord a = true ∨ isCapital b = false) (s : Bytes) :
    CommonKeyRe (some a) (b :: s) = none := by
  rw [CommonKeyRe,bounded]
  refine if_neg fun hfound => ?_
  rw [Bool.and_eq_true] at hfound
  obtain ⟨hb,hbound⟩ := hfound
  obtain ha | hnot := h
  · rw [boundary,Option.any_some,Option.any_some,ha,isWord_of_isTeam (isTeam_of_isCapital hb)] at hbound
    cases hbound
  · rw [hb] at hnot
    cases hnot

lemma isChain_digits {digits : Bytes} (h : ∀ b ∈ digits, isDecimal b = true) (a : UInt8) :
    (a :: digits).IsChain fun a b => isWord a = true ∨ isCapital b = false := by
  induction digits generalizing a with
  | nil => exact .singleton a
  | cons d digits ih =>
    rw [List.forall_mem_cons] at h
    exact .cons_cons (.inr (not_isCapital_of_isDecimal h.1)) (ih h.2 d)

lemma isChain_key {team digits : Bytes} (hteam : ∀ b ∈ team, isTeam b = true)
    (hdigits : ∀ b ∈ digits, isDecimal b = true) {a : UInt8} (ha : isWord a = true) :
    (a :: (team ++ 45 :: digits)).IsChain fun a b => isWord a = true ∨ isCapital b = false := by
  induction team generalizing a with
  | nil => exact .cons_cons (.inl ha) (isChain_digits hdigits 45)
  | cons b team ih =>
    rw [List.forall_mem_cons] at hteam
    exact .cons_cons (.inl ha) (ih hteam.2 (isWord_of_isTeam hteam.1))

end Match

lemma keys_apart : Apart CommonKeyRe := by
  intro prev a s n h
  obtain ⟨c,w,post,heq,hlen,hfound⟩ := Bounded.of_some h
  obtain ⟨rfl,rfl⟩ := List.cons.inj heq
  obtain rfl := Nat.add_right_cancel hlen
  obtain ⟨team,digits,rfl,-,hteam,-,hdigits⟩ := matches_keyRest.mp hfound.found
  have hchain := isChain_key hteam hdigits (isWord_of_isTeam (isTeam_of_isCapital hfound.first))
  exact clear_of_isChain (hchain.imp fun _ _ => keyLength_none) post

lemma key_le (prev : Option UInt8) (s : Bytes) (n : ℕ) (h : CommonKeyRe prev s = some n) : n ≤ s.length :=
  bounded_le prev s n h

lemma mention_iff {pre k post : Bytes} : Mention pre k post ↔ MatchAt CommonKeyRe none pre k post := by
  rw [matchAt_iff,before,Option.or_none]
  exact ⟨fun h => ⟨h.key,h.left,h.right⟩,fun h => ⟨h.1,h.2.1,h.2.2⟩⟩

/-- A key is in capitals already. -/
lemma toUpper_key {k : Bytes} (h : IsKey k) : toUpper up k = k := by
  have hall : ∀ b : UInt8, isTeam b = true ∨ b = 45 → b < 128 ∧ upperByte b = b := forall_byte (by decide +kernel)
  have hbytes : ∀ b ∈ k, b < 128 ∧ upperByte b = b := by
    obtain ⟨c,team,digits,rfl,hc,-,hteam,-,hdigits⟩ := h
    intro b hb
    refine hall b ?_
    rw [List.mem_append,List.mem_cons,List.mem_cons] at hb
    obtain (rfl | hb) | (rfl | hb) := hb
    · exact .inl (isTeam_of_isCapital hc)
    · exact .inl (hteam b hb)
    · exact .inr rfl
    · exact .inl (isTeam_of_isDecimal (hdigits b hb))
  rw [toUpper,if_pos (List.all_eq_true.mpr fun b hb => decide_eq_true (hbytes b hb).1)]
  exact (List.map_congr_left fun b hb => (hbytes b hb).2).trans (List.map_id' k)

section Firsts
variable {seen ks : List Bytes} {k : Bytes}

lemma mem_firsts : k ∈ firsts seen ks ↔ k ∈ ks ∧ k ∉ seen := by
  induction ks generalizing seen with
  | nil => simp [firsts]
  | cons a ks ih =>
    rw [firsts]
    split
    · next ha =>
      rw [ih,List.mem_cons]
      exact ⟨fun h => ⟨.inr h.1,h.2⟩,fun h => ⟨h.1.resolve_left fun hk => h.2 (hk ▸ ha),h.2⟩⟩
    · next ha =>
      rw [List.mem_cons,ih,List.mem_cons,List.mem_cons,not_or]
      constructor
      · rintro (rfl | ⟨hk,-,hseen⟩)
        · exact ⟨.inl rfl,ha⟩
        · exact ⟨.inr hk,hseen⟩
      · rintro ⟨hk,hseen⟩
        by_cases heq : k = a
        · exact .inl heq
        · exact .inr ⟨hk.resolve_left heq,heq,hseen⟩

lemma firsts_nodup (seen ks : List Bytes) : (firsts seen ks).Nodup := by
  induction ks generalizing seen with
  | nil => exact List.nodup_nil
  | cons a ks ih =>
    rw [firsts]
    split
    · exact ih seen
    · rw [List.nodup_cons,mem_firsts]
      exact ⟨fun h => h.2 List.mem_cons_self,ih _⟩

/-- What is kept stands at its first place. -/
lemma firsts_split {l r : List Bytes} (h : firsts seen ks = l ++ k :: r) :
    ∃ a b, ks = a ++ k :: b ∧ ∀ x ∈ a, x ∈ l ∨ x ∈ seen := by
  induction ks generalizing seen l with
  | nil => cases l <;> cases h
  | cons q ks ih =>
    rw [firsts] at h
    split at h
    · next hq =>
      obtain ⟨a,b,rfl,ha⟩ := ih h
      exact ⟨q :: a,b,rfl,List.forall_mem_cons.mpr ⟨.inr hq,ha⟩⟩
    · cases l with
      | nil =>
        obtain ⟨rfl,-⟩ := List.cons.inj h
        exact ⟨[],ks,rfl,List.forall_mem_nil _⟩
      | cons q' l =>
        obtain ⟨rfl,hrest⟩ := List.cons.inj h
        obtain ⟨a,b,rfl,ha⟩ := ih hrest
        refine ⟨q :: a,b,rfl,List.forall_mem_cons.mpr ⟨.inl List.mem_cons_self,fun x hx => ?_⟩⟩
        obtain hl | hseen := ha x hx
        · exact .inl (List.mem_cons_of_mem _ hl)
        · obtain rfl | hseen := List.mem_cons.mp hseen
          · exact .inl List.mem_cons_self
          · exact .inr hseen

end Firsts

/-- Each key stands in the list where it is mentioned first. -/
def FirstMentioned (text : Bytes) (keys : List Bytes) : Prop := ∀ l k r, keys = l ++ k :: r →
  ∃ pre post, text = pre ++ (k ++ post) ∧ Mention pre k post ∧
    ∀ pre' k' post', text = pre' ++ (k' ++ post') → Mention pre' k' post' → pre'.length < pre.length → k' ∈ l

section Extract
variable (text : Bytes)

lemma mem_everywhere_iff {k : Bytes} : k ∈ everywhere CommonKeyRe none text ↔ Mentions text k := by
  rw [mem_everywhere key_le,Mentions]
  exact exists_congr fun pre => exists_congr fun post => and_congr_right fun _ => mention_iff.symm

lemma ExtractKeys_eq : ExtractKeys up text = firsts [] (everywhere CommonKeyRe none text) := by
  rw [ExtractKeys,findAll_eq keys_apart]
  refine congrArg (firsts []) ((List.map_congr_left fun k hk => ?_).trans (List.map_id' _))
  obtain ⟨pre,post,-,hmention⟩ := (mem_everywhere_iff text).mp hk
  exact toUpper_key up hmention.key

lemma mem_ExtractKeys {k : Bytes} : k ∈ ExtractKeys up text ↔ Mentions text k := by
  rw [ExtractKeys_eq,mem_firsts,mem_everywhere_iff]
  exact and_iff_left List.not_mem_nil

lemma ExtractKeys_first : FirstMentioned text (ExtractKeys up text) := by
  intro l k r h
  rw [ExtractKeys_eq] at h
  obtain ⟨a,b,heq,ha⟩ := firsts_split h
  obtain ⟨pre,post,htext,hmatch,hbefore⟩ := everywhere_split key_le heq
  refine ⟨pre,post,htext,mention_iff.mpr hmatch,fun pre' k' post' htext' hmention hlt => ?_⟩
  exact (ha k' (hbefore pre' k' post' htext' (mention_iff.mp hmention) hlt)).resolve_right List.not_mem_nil

end Extract

/-- A line break belongs to no key. -/
lemma newline_notMem {k : Bytes} (h : IsKey k) : newline ∉ k := by
  obtain ⟨c,team,digits,rfl,hc,-,hteam,-,hdigits⟩ := h
  intro hin
  rw [List.mem_append,List.mem_cons,List.mem_cons] at hin
  obtain (rfl | hin) | (hin | hin) := hin
  · cases hc
  · cases hteam _ hin
  · cases hin
  · cases hdigits _ hin

/-- A key is mentioned in two lines of text where it is in one of them. -/
lemma mentions_lines {a b k : Bytes} : Mentions (a ++ newline :: b) k ↔ Mentions a k ∨ Mentions b k := by
  constructor
  · rintro ⟨pre,post,heq,hmention⟩
    obtain ⟨g,rfl,hb⟩ | ⟨g,rfl,hg⟩ := append_eq_append_cons heq.symm
    · refine .inr ⟨g,post,hb,hmention.key,?_,hmention.right⟩
      have hleft := hmention.left
      rw [List.getLast?_append,List.getLast?_cons] at hleft
      cases hlast : g.getLast? with
      | none => rfl
      | some x =>
        rw [hlast] at hleft
        exact hleft
    · obtain ⟨u,hk,-⟩ | ⟨u,rfl,rfl⟩ := append_eq_append_cons hg
      · exact absurd (hk ▸ List.mem_append_right _ List.mem_cons_self) (newline_notMem hmention.key)
      · refine .inl ⟨pre,u,rfl,hmention.key,hmention.left,?_⟩
        have hright := hmention.right
        rw [List.head?_append] at hright
        cases hhead : u.head? with
        | none => rfl
        | some x =>
          rw [hhead] at hright
          exact hright
  · rintro (⟨pre,post,rfl,hkey,hleft,hright⟩ | ⟨pre,post,rfl,hkey,hleft,hright⟩)
    · refine ⟨pre,post ++ newline :: b,by rw [List.append_assoc,List.append_assoc],hkey,hleft,?_⟩
      rw [List.head?_append]
      cases hhead : post.head? with
      | none => rfl
      | some x =>
        rw [hhead] at hright
        exact hright
    · refine ⟨a ++ newline :: pre,post,by rw [List.append_assoc,List.cons_append],hkey,?_,hright⟩
      rw [List.getLast?_append,List.getLast?_cons]
      cases hlast : pre.getLast? with
      | none => rfl
      | some x =>
        rw [hlast] at hleft
        exact hleft

/-- Every tracker is asked once for every key that the title or the body mentions, and for nothing else, in the order
in which the keys are mentioned first. -/
theorem linkedIssues_finds (ts : List (Tracker Issue)) (prTitle prBody : Bytes) : ∃ keys : List Bytes,
    keys.Nodup ∧ (∀ k, k ∈ keys ↔ Mentions prTitle k ∨ Mentions prBody k) ∧
    FirstMentioned (prTitle ++ newline :: prBody) keys ∧
    linkedIssues up ts prTitle prBody = ts.flatMap fun t => keys.filterMap t.issueOf := by
  refine ⟨ExtractKeys up (prTitle ++ newline :: prBody),?_,fun k => ?_,ExtractKeys_first up _,rfl⟩
  · rw [ExtractKeys_eq]
    exact firsts_nodup [] _
  · rw [mem_ExtractKeys,mentions_lines]

end IssueTrackers
