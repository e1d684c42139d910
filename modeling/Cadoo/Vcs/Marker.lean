import Cadoo.Lib.Base64
import Cadoo.Lib.Pattern
import Cadoo.Lib.Sha1

/-! The hidden markers Cadoo leaves in the comments it writes, and how they are read back. -/
namespace Vcs
open Bytes Pattern

def SummaryWrapperBegin : Bytes := lit "<!-- cadoo:wrapper:begin -->"
def reviewedSHAPrefix : Bytes := lit "<!-- cadoo:reviewed-sha:"
def reviewedSHASuffix : Bytes := lit " -->"

/-- The check `^[0-9a-f]{40}$`. -/
def reviewedSHARe (s : Bytes) : Bool := s.length == 40 && s.all Sha1.isHexDigit

def RenderReviewedSHA (sha : Bytes) : Bytes := reviewedSHAPrefix ++ sha ++ reviewedSHASuffix

def ParseReviewedSHA (body : Bytes) : Bytes :=
  match cut body reviewedSHAPrefix with
  | none => []
  | some (_,rest) =>
    match cut rest reviewedSHASuffix with
    | none => []
    | some (candidate,_) => if reviewedSHARe candidate then candidate else []

/-- The payload of an inline marker. -/
structure MarkerData where
  tool : Bytes
  sk : Bytes
  sev : Bytes
  nt : Bytes
  deriving DecidableEq

/-- The class `\s`; `\S` is its complement, read bytewise. -/
def reSpace (b : UInt8) : Bool := b == 9 || b == 10 || b == 12 || b == 13 || b == 32
def reNonSpace (b : UInt8) : Bool := !reSpace b

lemma reNonSpace_of_printable {b : UInt8} (h : 32 < b) : reNonSpace b = true := by
  have hne : ∀ c : UInt8, c ≤ 32 → b ≠ c := by
    rintro c hc rfl
    exact absurd h (UInt8.not_lt.mpr hc)
  simp [reNonSpace,reSpace,hne]

/-- The group `(?:\s+nt=(\S+))`. -/
def ntGroup : Pattern UInt8 :=
  seq (run 1 reSpace) (seq (.lit (lit "nt=")) (capture (run 1 reNonSpace)))

/-- `\n+<!-- cadoo:fp v=1 tool=(\S+) sk=(\S+) sev=(\S*)(?:\s+nt=(\S+))? -->` -/
def inlineMarkerRe : Pattern UInt8 :=
  seq (run 1 (· == newline)) (seq (.lit (lit "<!-- cadoo:fp v=1 tool="))
    (seq (capture (run 1 reNonSpace)) (seq (.lit (lit " sk="))
      (seq (capture (run 1 reNonSpace)) (seq (.lit (lit " sev="))
        (seq (capture (run 0 reNonSpace)) (seq (opt ntGroup) (.lit (lit " -->")))))))))

def InlineMarker (d : MarkerData) : Bytes :=
  if d.nt = [] then
    lit "<!-- cadoo:fp v=1 tool=" ++ d.tool ++ lit " sk=" ++ d.sk ++ lit " sev=" ++ d.sev ++ lit " -->"
  else
    lit "<!-- cadoo:fp v=1 tool=" ++ d.tool ++ lit " sk=" ++ d.sk ++ lit " sev=" ++ d.sev ++
      lit " nt=" ++ Base64.encode d.nt ++ lit " -->"

/-- The marker of a comment body, with the text before it; what follows it is dropped. -/
def ParseInlineMarker (body : Bytes) : Option (MarkerData × Bytes) :=
  match inlineMarkerRe.search body with
  | some (before,⟨_,[some tool,some sk,some sev,nt],_⟩) =>
    some (⟨tool,sk,sev,(nt.bind Base64.decode).getD []⟩,trimRight before newline)
  | _ => none

def FirstLine (s : Bytes) : Bytes :=
  match cut s [newline] with
  | some (line,_) => line
  | none => s

/-- A text the marker pattern matches, taken apart. -/
structure MarkerText where
  lead : Bytes
  tool : Bytes
  sk : Bytes
  sev : Bytes
  gap : Bytes
  nt : Option Bytes
  lead_ne : lead ≠ []
  lead_newline : ∀ b ∈ lead, b = newline
  tool_ne : tool ≠ []
  tool_nonSpace : ∀ b ∈ tool, reNonSpace b = true
  sk_nonSpace : ∀ b ∈ sk, reNonSpace b = true
  sev_nonSpace : ∀ b ∈ sev, reNonSpace b = true
  gap_space : ∀ b ∈ gap, reSpace b = true
  nt_nonSpace : ∀ e ∈ nt, ∀ b ∈ e, reNonSpace b = true

def MarkerText.head (t : MarkerText) : Bytes :=
  lit "<!-- cadoo:fp v=1 tool=" ++ t.tool ++ lit " sk=" ++ t.sk ++ lit " sev=" ++ t.sev

def MarkerText.tail (t : MarkerText) : Bytes :=
  match t.nt with
  | none => []
  | some e => t.gap ++ (lit "nt=" ++ e)

def MarkerText.text (t : MarkerText) : Bytes := t.lead ++ (t.head ++ (t.tail ++ lit " -->"))

/-- The pattern matches such texts only, and captures their parts. -/
theorem marker_matches {w : Bytes} {cs : List (Option Bytes)} (h : Matches inlineMarkerRe w cs) :
    ∃ t : MarkerText, w = t.text ∧ cs = [some t.tool,some t.sk,some t.sev,t.nt] := by
  rw [inlineMarkerRe] at h
  obtain ⟨lead,_,rfl,hl,hlead,h₁⟩ := matches_run_seq_iff.mp h
  obtain ⟨_,rfl,h₂⟩ := matches_lit_seq_iff.mp h₁
  obtain ⟨tool,_,_,rfl,rfl,ht,htool,h₃⟩ := matches_capture_run_seq_iff.mp h₂
  obtain ⟨_,rfl,h₄⟩ := matches_lit_seq_iff.mp h₃
  obtain ⟨sk,_,_,rfl,rfl,-,hsk,h₅⟩ := matches_capture_run_seq_iff.mp h₄
  obtain ⟨_,rfl,h₆⟩ := matches_lit_seq_iff.mp h₅
  obtain ⟨sev,_,_,rfl,rfl,-,hsev,h₇⟩ := matches_capture_run_seq_iff.mp h₆
  obtain ⟨tail,_,_,_,rfl,rfl,hopt,hend⟩ := matches_seq_iff.mp h₇
  obtain ⟨rfl,rfl⟩ := matches_lit_iff.mp hend
  have hl : lead ≠ [] := List.length_pos_iff.mp hl
  have ht : tool ≠ [] := List.length_pos_iff.mp ht
  have hlead : ∀ b ∈ lead, b = newline := by simpa using hlead
  rcases matches_opt_iff.mp hopt with ⟨rfl,rfl⟩ | hnt
  · refine ⟨⟨lead,tool,sk,sev,[],none,hl,hlead,ht,htool,hsk,hsev,by simp,by simp⟩,?_,rfl⟩
    simp [MarkerText.text,MarkerText.head,MarkerText.tail]
  · rw [ntGroup] at hnt
    obtain ⟨gap,_,rfl,-,hgap,hlit⟩ := matches_run_seq_iff.mp hnt
    obtain ⟨e,rfl,hcap⟩ := matches_lit_seq_iff.mp hlit
    obtain ⟨_,rfl,hrun⟩ := matches_capture_iff.mp hcap
    obtain ⟨-,he,rfl⟩ := matches_run_iff.mp hrun
    refine ⟨⟨lead,tool,sk,sev,gap,some e,hl,hlead,ht,htool,hsk,hsev,hgap,by simpa using he⟩,?_,rfl⟩
    simp [MarkerText.text,MarkerText.head,MarkerText.tail]

lemma MarkerText.newline_notMem_head (t : MarkerText) : newline ∉ t.head := by
  have hn : reNonSpace newline = false := by decide
  have h₁ : newline ∉ lit "<!-- cadoo:fp v=1 tool=" := by decide
  have h₂ : newline ∉ lit " sk=" := by decide
  have h₃ : newline ∉ lit " sev=" := by decide
  have ht : newline ∉ t.tool := fun h => by simp [t.tool_nonSpace _ h] at hn
  have hsk : newline ∉ t.sk := fun h => by simp [t.sk_nonSpace _ h] at hn
  have hsev : newline ∉ t.sev := fun h => by simp [t.sev_nonSpace _ h] at hn
  simp [MarkerText.head,h₁,h₂,h₃,ht,hsk,hsev]

/-- A line break of a marker text is one of its leading ones or stands in the gap before `nt=`. -/
lemma MarkerText.newline_split (t : MarkerText) {a b : Bytes} (h : t.text = a ++ newline :: b) :
    (∀ x ∈ a, x = newline) ∨ ∃ g r, b = g ++ 110 :: r ∧ ∀ x ∈ g, reSpace x = true := by
  have hend : newline ∉ lit " -->" := by decide
  rcases append_eq_append_cons h with ⟨g,hg,-⟩ | ⟨g,-,h⟩
  · left
    intro x hx
    exact t.lead_newline x (by simp [hg,hx])
  rcases append_eq_append_cons h with ⟨g,hg,-⟩ | ⟨g,-,h⟩
  · exact absurd (by simp [hg]) t.newline_notMem_head
  rcases append_eq_append_cons h with ⟨g,hg,rfl⟩ | ⟨g,-,h⟩
  · right
    cases hnt : t.nt with
    | none => simp [MarkerText.tail,hnt] at hg
    | some e =>
      have he : newline ∉ lit "nt=" ++ e := by
        have h₁ : newline ∉ lit "nt=" := by decide
        have hn : reNonSpace newline = false := by decide
        have h₂ : newline ∉ e := fun hm => by simp [t.nt_nonSpace e hnt _ hm] at hn
        simp [h₁,h₂]
      simp only [MarkerText.tail,hnt] at hg
      rcases append_eq_append_cons hg with ⟨f,hf,rfl⟩ | ⟨f,-,hf⟩
      · refine ⟨f,lit "t=" ++ e ++ lit " -->",?_,fun x hx => t.gap_space x (by simp [hf,hx])⟩
        have hl : lit "nt=" = 110 :: lit "t=" := by decide
        simp [hl]
      · exact absurd (by simp [hf]) he
  · exact absurd (by simp [h]) hend

/-- No marker starts inside a text without markers and runs on into line breaks and a `<`. -/
lemma found_before_marker {x y z : Bytes} {n k : ℕ}
    (hb : inlineMarkerRe.search (x ++ y ++ List.replicate k newline) = none)
    (hy : ∃ c ∈ y, c ≠ newline) (hn : 0 < n) :
    inlineMarkerRe.found (y ++ (List.replicate n newline ++ 60 :: z)) = [] := by
  rw [search_eq_none_iff] at hb
  rw [found_eq_nil_iff]
  intro w cs r hw hm
  have hin : ∀ u, y ≠ w ++ u := fun u hu => hb x w (u ++ List.replicate k newline) cs (by simp [hu]) hm
  rcases List.append_eq_append_iff.mp hw with ⟨w',rfl,hs⟩ | ⟨u,hu,-⟩
  · cases w' with
    | nil => exact hin [] (by simp)
    | cons c w' =>
      obtain ⟨n,rfl⟩ : ∃ j, n = j+1 := ⟨n-1,by omega⟩
      obtain ⟨rfl,hz⟩ : newline = c ∧ List.replicate n newline ++ 60 :: z = w' ++ r := by
        simpa [List.replicate_succ] using hs
      obtain ⟨t,ht,-⟩ := marker_matches hm
      rcases t.newline_split ht.symm with h | ⟨g,r',rfl,hg⟩
      · obtain ⟨c,hc,hne⟩ := hy
        exact hne (h c hc)
      · -- the first symbol after the blanks would be both `<` and the `n` of `nt=`
        have hd := congrArg (List.dropWhile reSpace) hz
        rw [List.append_assoc,List.dropWhile_append_of_pos (by simp [reSpace,newline]),
          List.dropWhile_append_of_pos hg] at hd
        simp [reSpace] at hd
  · exact hin u hu

section Body
variable {body : Bytes} {k : ℕ} (hbody : body = trimRight body newline ++ List.replicate k newline)
include hbody

/-- The line breaks that a body ends in go with the blank line put after it. -/
lemma append_blank_line (z : Bytes) :
    body ++ (lit "\n\n" ++ z) = trimRight body newline ++ (List.replicate (k+2) newline ++ z) := by
  conv_lhs => rw [hbody]
  rw [List.replicate_add]
  simp only [List.append_assoc]
  rfl

/-- No marker starts inside a body without markers that stands before a blank line and a comment. -/
lemma found_in_body (hb : inlineMarkerRe.search body = none) {x y : Bytes} (hxy : trimRight body newline = x ++ y)
    (hy : y ≠ []) (z : Bytes) :
    inlineMarkerRe.found (y ++ (List.replicate (k+2) newline ++ 60 :: z)) = [] := by
  have hne : trimRight body newline ≠ [] := by simp [hxy,hy]
  have hlast := trimRight_getLast_ne body newline hne
  simp only [hxy,List.getLast_append_of_ne_nil _ hy] at hlast
  apply found_before_marker (x := x) (k := k) _ ⟨y.getLast hy,List.getLast_mem hy,hlast⟩ (by omega)
  rw [← hxy,← hbody]
  exact hb

end Body

section ReadBack
variable {tool sk sev : Bytes} (ht : tool ≠ []) (htool : ∀ b ∈ tool, reNonSpace b = true)
  (hk : sk ≠ []) (hsk : ∀ b ∈ sk, reNonSpace b = true) (hsev : ∀ b ∈ sev, reNonSpace b = true)
include ht htool hk hsk hsev

/-- Up to the severity a marker is read in one way. -/
lemma found_marker (n : ℕ) (hn : 0 < n) (s : Bytes) (hs : ∀ a ∈ s.head?, reNonSpace a = false) :
    inlineMarkerRe.found (List.replicate n newline ++ (lit "<!-- cadoo:fp v=1 tool=" ++ (tool ++
      (lit " sk=" ++ (sk ++ (lit " sev=" ++ (sev ++ s))))))) =
    ((seq (opt ntGroup) (.lit (lit " -->"))).found s).map fun m =>
      ⟨List.replicate n newline ++ (lit "<!-- cadoo:fp v=1 tool=" ++ (tool ++
        (lit " sk=" ++ (sk ++ (lit " sev=" ++ (sev ++ m.text)))))),
        some tool :: some sk :: some sev :: m.caps,m.rest⟩ := by
  have hrej : (seq (opt ntGroup) (.lit (lit " -->"))).Rejects reNonSpace := by
    apply rejects_opt_seq
    · exact rejects_seq (rejects_run (by simp) (by simp [reNonSpace]))
    · exact rejects_lit (b := 32) (t := lit "-->") (by decide)
  have hspace : reNonSpace 32 = false := by decide
  have hsk' : ∀ t : Bytes, ∀ a ∈ (lit " sk=" ++ t).head?, reNonSpace a = false := by
    rintro t _ ⟨⟩
    exact hspace
  have hsev' : ∀ t : Bytes, ∀ a ∈ (lit " sev=" ++ t).head?, reNonSpace a = false := by
    rintro t _ ⟨⟩
    exact hspace
  rw [inlineMarkerRe,found_run_seq _ (by simp) (by simp; omega) _,found_lit_seq,
    found_capture_run_seq _ htool (List.length_pos_iff.mpr ht) (hsk' _),found_lit_seq,
    found_capture_run_seq _ hsk (List.length_pos_iff.mpr hk) (hsev' _),found_lit_seq,
    found_capture_run_seq hrej hsev (by simp) hs]
  · simp [Found.before,Function.comp_def]
  · exact rejects_seq (rejects_lit (b := 32) (t := lit "sev=") (by decide))
  · exact rejects_seq (rejects_lit (b := 32) (t := lit "sk=") (by decide))
  · exact rejects_seq (rejects_lit (b := 60) (t := lit "!-- cadoo:fp v=1 tool=") (by decide))
  · rintro _ ⟨⟩
    decide

/-- A text without markers followed by one is read back from that marker. -/
lemma ParseInlineMarker_of_tail {body s text rest : Bytes} {nt : Option Bytes}
    (hb : inlineMarkerRe.search body = none) (hs : ∀ a ∈ s.head?, reNonSpace a = false)
    (htail : ((seq (opt ntGroup) (.lit (lit " -->"))).found s).head? = some ⟨text,[nt],rest⟩) :
    ParseInlineMarker (body ++ (lit "\n\n" ++ (lit "<!-- cadoo:fp v=1 tool=" ++ (tool ++
      (lit " sk=" ++ (sk ++ (lit " sev=" ++ (sev ++ s)))))))) =
    some (⟨tool,sk,sev,(nt.bind Base64.decode).getD []⟩,trimRight body newline) := by
  obtain ⟨k,hbody⟩ := trimRight_append_replicate body newline
  have hlit : lit "<!-- cadoo:fp v=1 tool=" = 60 :: lit "!-- cadoo:fp v=1 tool=" := by decide
  have hpass : ∀ z : Bytes, ∀ x y, trimRight body newline = x ++ y → y ≠ [] →
      inlineMarkerRe.found (y ++ (List.replicate (k+2) newline ++
        (lit "<!-- cadoo:fp v=1 tool=" ++ z))) = [] := by
    intro z x y hxy hy
    rw [hlit,List.cons_append]
    exact found_in_body hbody hb hxy hy _
  have hf := found_marker ht htool hk hsk hsev (k+2) (by omega) s hs
  rw [ParseInlineMarker,append_blank_line hbody,search_append (hpass _) (by rw [hf,List.head?_map,htail]; rfl)]
  simp

end ReadBack

/-- A marker without a title ends right after the severity. -/
lemma found_tail_none (s : Bytes) : (seq (opt ntGroup) (.lit (lit " -->"))).found (lit " -->" ++ s) =
    [⟨lit " -->",[none],s⟩] := by
  have hg : ntGroup.found (lit " -->" ++ s) = [] := by
    have hlit : lit " -->" ++ s = [32] ++ (lit "-->" ++ s) := by rw [← List.append_assoc]; rfl
    rw [hlit,ntGroup,found_run_seq _ (by simp [reSpace]) (Nat.le_refl 1) _,found_lit_seq_eq_nil]
    · rfl
    · rintro ⟨r,hr⟩
      exact absurd (List.cons_eq_cons.mp hr).1 (by decide)
    · exact rejects_seq (rejects_lit (b := 110) (t := lit "t=") (by decide))
    · rintro _ ⟨⟩
      decide
  rw [found,found,hg]
  simp [Found.before,ntGroup,groups]

/-- A title follows the severity as a block without blanks. -/
lemma found_tail_some (e s : Bytes) (he : e ≠ []) (hn : ∀ b ∈ e, reNonSpace b = true) :
    ((seq (opt ntGroup) (.lit (lit " -->"))).found (lit " nt=" ++ (e ++ (lit " -->" ++ s)))).head? =
      some ⟨lit " nt=" ++ (e ++ lit " -->"),[some e],s⟩ := by
  have hstop : ∀ b ∈ (lit " -->" ++ s).head?, reNonSpace b = false := by
    rintro _ ⟨⟩
    decide
  obtain ⟨ms,hms,-⟩ := found_run hn (List.length_pos_iff.mpr he) hstop
  have hg : ∃ ks, ntGroup.found (lit " nt=" ++ (e ++ (lit " -->" ++ s))) =
      ⟨lit " nt=" ++ e,[some e],lit " -->" ++ s⟩ :: ks := by
    have hlit : ∀ t : Bytes, lit " nt=" ++ t = [32] ++ (lit "nt=" ++ t) := by
      intro t
      rw [← List.append_assoc]
      rfl
    rw [hlit,ntGroup,found_run_seq _ (by simp [reSpace]) (Nat.le_refl 1) _,found_lit_seq,found_capture,hms]
    · exact ⟨_,rfl⟩
    · exact rejects_seq (rejects_lit (b := 110) (t := lit "t=") (by decide))
    · rintro _ ⟨⟩
      decide
  obtain ⟨ks,hks⟩ := hg
  have ho : (opt ntGroup).found (lit " nt=" ++ (e ++ (lit " -->" ++ s))) =
      ⟨lit " nt=" ++ e,[some e],lit " -->" ++ s⟩ :: (ks ++ [⟨[],[none],lit " nt=" ++ (e ++ (lit " -->" ++ s))⟩]) := by
    rw [found,hks]
    rfl
  rw [head?_found_seq (m := ⟨lit " nt=" ++ e,[some e],lit " -->" ++ s⟩) (k := ⟨lit " -->",[],s⟩) ho]
  · simp [Found.before]
  · simp

/-- A stamped body is read back exactly: the payload, and the body less its trailing line breaks.
Neither the body, when it holds no marker itself, nor what follows the stamp has a say. -/
theorem ParseInlineMarker_stamped {body trailing : Bytes} {d : MarkerData}
    (hb : inlineMarkerRe.search body = none) (ht : d.tool ≠ [])
    (htool : ∀ b ∈ d.tool, reNonSpace b = true) (hk : d.sk ≠ [])
    (hsk : ∀ b ∈ d.sk, reNonSpace b = true) (hsev : ∀ b ∈ d.sev, reNonSpace b = true) :
    ParseInlineMarker (body ++ (lit "\n\n" ++ (InlineMarker d ++ trailing))) =
      some (d,trimRight body newline) := by
  obtain ⟨tool,sk,sev,nt⟩ := d
  have hread := @ParseInlineMarker_of_tail tool sk sev ht htool hk hsk hsev body
  by_cases hnt : nt = []
  · have hend : ∀ a ∈ (lit " -->" ++ trailing).head?, reNonSpace a = false := by
      rintro _ ⟨⟩
      decide
    have h := hread hb hend (by rw [found_tail_none]; rfl)
    simpa [InlineMarker,hnt] using h
  · have hend : ∀ z : Bytes, ∀ a ∈ (lit " nt=" ++ z).head?, reNonSpace a = false := by
      rintro z _ ⟨⟩
      decide
    have he : ∀ b ∈ Base64.encode nt, reNonSpace b = true :=
      fun b hb => reNonSpace_of_printable (Base64.encode_printable hb)
    have h := hread hb (hend _) (found_tail_some _ trailing (Base64.encode_ne_nil hnt) he)
    simpa [InlineMarker,hnt,Base64.decode_encode] using h

/-- What is read back came from the leftmost marker, and has a tool and a severity without blanks. -/
lemma ParseInlineMarker_eq_some {b s : Bytes} {d : MarkerData}
    (h : ParseInlineMarker b = some (d,s)) : ∃ u m, inlineMarkerRe.search b = some (u,m) ∧
      s = trimRight u newline ∧ d.tool ≠ [] ∧ ∀ x ∈ d.sev, reNonSpace x = true := by
  unfold ParseInlineMarker at h
  split at h
  · next u w tool sk sev nt rest hs =>
    obtain ⟨-,hm,-⟩ := search_eq_some hs
    obtain ⟨t,-,hcs⟩ := marker_matches hm
    obtain ⟨rfl,rfl,rfl,rfl⟩ : tool = t.tool ∧ sk = t.sk ∧ sev = t.sev ∧ nt = t.nt := by
      simpa using hcs
    obtain ⟨rfl,rfl⟩ : _ = d ∧ trimRight u newline = s := by simpa using h
    exact ⟨u,_,hs,rfl,t.tool_ne,t.sev_nonSpace⟩
  · simp at h

/-- A text with a marker of its own is cut there. -/
lemma stripped_ne_of_marker {body rest s : Bytes} {d : MarkerData}
    (hb : inlineMarkerRe.search body ≠ none)
    (h : ParseInlineMarker (body ++ rest) = some (d,s)) :
    trimRight s newline ≠ trimRight body newline := by
  obtain ⟨u,m,hu,rfl,-,-⟩ := ParseInlineMarker_eq_some h
  obtain ⟨⟨x,k⟩,hx⟩ := Option.ne_none_iff_exists'.mp hb
  obtain ⟨hbody,hm,-⟩ := search_eq_some hx
  obtain ⟨-,-,hleft⟩ := search_eq_some hu
  have hlen : u.length ≤ x.length := hleft x k.text (k.rest ++ rest) k.caps (by simp [hbody]) hm
  have hshort : (trimRight u newline).length ≤ x.length :=
    (u.rdropWhile_prefix _).length_le.trans hlen
  obtain ⟨t,ht,-⟩ := marker_matches hm
  obtain ⟨n,hn⟩ := trimRight_append_replicate body newline
  have hlong : x.length < (trimRight body newline).length := by
    by_contra hle
    -- all of the marker would be line breaks
    have hlt : (60 : UInt8) ∈ body.drop x.length := by
      have h60 : (60 : UInt8) ∈ lit "<!-- cadoo:fp v=1 tool=" := by decide
      rw [hbody,List.drop_left]
      simp [ht,MarkerText.text,MarkerText.head,h60]
    rw [hn,List.drop_append,List.drop_of_length_le (by omega),List.nil_append,
      List.drop_replicate] at hlt
    exact absurd (List.eq_of_mem_replicate hlt) (by decide)
  intro he
  rw [trimRight_trimRight] at he
  rw [he] at hshort
  omega

end Vcs
