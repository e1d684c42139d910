import Cadoo.Findings.RoundTrip
import Cadoo.Vcs.Notes

/-! A finding outside the diff, posted as a note under the line that says where it belongs, and what is read back
of it. -/
namespace GitLab
open Bytes Utf8 Pattern Paging Vcs Findings

section Search

lemma matches_one_newline {r : Bytes} {cs : List (Option Bytes)}
    (h : Matches inlineMarkerRe (newline :: newline :: r) cs) : Matches inlineMarkerRe (newline :: r) cs := by
  rw [inlineMarkerRe] at h ⊢
  obtain ⟨lead,w,hw,hlen,hall,hm⟩ := matches_run_seq_iff.mp h
  obtain ⟨c,lead,rfl⟩ := List.exists_cons_of_length_pos hlen
  have hrest := (List.cons_eq_cons.mp hw).2
  cases lead with
  | nil =>
    -- the literal would start with a line break
    obtain ⟨v,rfl,-⟩ := matches_lit_seq_iff.mp hm
    have hlit : lit "<!-- cadoo:fp v=1 tool=" = 60 :: lit "!-- cadoo:fp v=1 tool=" := by decide
    rw [hlit] at hrest
    exact absurd (List.cons_eq_cons.mp hrest).1 (by decide)
  | cons d lead =>
    exact matches_run_seq_iff.mpr
      ⟨d :: lead,w,hrest,Nat.succ_pos lead.length,fun a ha => hall a (List.mem_cons_of_mem c ha),hm⟩

/-- A marker is line breaks and a comment. -/
lemma matches_head {w : Bytes} {cs : List (Option Bytes)} (h : Matches inlineMarkerRe w cs) :
    ∃ b v, w = newline :: b :: v ∧ (b = newline ∨ b = 60) := by
  obtain ⟨t,rfl,-⟩ := marker_matches h
  have hlit : lit "<!-- cadoo:fp v=1 tool=" = 60 :: lit "!-- cadoo:fp v=1 tool=" := by decide
  obtain ⟨c,lead,hlead⟩ := List.exists_cons_of_ne_nil t.lead_ne
  have hc : c = newline := t.lead_newline c (by simp [hlead])
  rw [MarkerText.text,MarkerText.head,hlead,hlit,hc]
  cases lead with
  | nil => exact ⟨60,_,rfl,.inr rfl⟩
  | cons d lead => exact ⟨d,_,rfl,.inl (t.lead_newline d (by simp [hlead]))⟩

/-- A line, an empty one and a prefix without line breaks bring no marker in. -/
lemma search_located {front pre body : Bytes} (hfront : newline ∉ front) (hpre : newline ∉ pre)
    (hhead : ∀ b ∈ pre.head?, b ≠ 60) (hb : inlineMarkerRe.search (newline :: body) = none) :
    inlineMarkerRe.search (front ++ newline :: newline :: (pre ++ body)) = none := by
  rw [search_eq_none_iff] at hb ⊢
  -- a marker cannot start right before the prefix
  have hat : ∀ w v cs, pre ++ body = w ++ v → ¬ Matches inlineMarkerRe (newline :: w) cs := by
    intro w v cs hw hm
    cases pre with
    | nil => exact hb [] (newline :: w) v cs (congrArg (newline :: ·) hw) hm
    | cons a pre =>
      obtain ⟨b,w',hb',hor⟩ := matches_head hm
      rw [(List.cons_eq_cons.mp hb').2] at hw
      obtain rfl := (List.cons_eq_cons.mp hw).1
      rcases hor with rfl | rfl
      · exact hpre List.mem_cons_self
      · exact hhead 60 rfl rfl
  intro u w v cs hw hm
  obtain ⟨b,w',rfl,-⟩ := matches_head hm
  rcases append_eq_append_cons hw with ⟨g,rfl,-⟩ | ⟨g,-,hg⟩
  · simp at hfront
  · match g with
    | [] =>
      obtain ⟨rfl,hrest⟩ := List.cons_eq_cons.mp (List.cons_eq_cons.mp hg).2
      exact hat w' v cs hrest (matches_one_newline hm)
    | [_] => exact hat (b :: w') v cs (List.cons_eq_cons.mp (List.cons_eq_cons.mp hg).2).2 hm
    | _ :: _ :: g =>
      rcases append_eq_append_cons (List.cons_eq_cons.mp (List.cons_eq_cons.mp hg).2).2 with ⟨_,rfl,-⟩ | ⟨k,-,hk⟩
      · simp at hpre
      · exact hb (newline :: k) _ v cs (congrArg (newline :: ·) hk) hm

/-- A stamp without a tool is no marker. -/
lemma search_toolless {body rest : Bytes} (hb : inlineMarkerRe.search body = none) (hrest : newline ∉ rest) :
    inlineMarkerRe.search (body ++ (lit "\n\n" ++ (lit "<!-- cadoo:fp v=1 tool=" ++ 32 :: rest))) = none := by
  have hlit : lit "<!-- cadoo:fp v=1 tool=" = 60 :: lit "!-- cadoo:fp v=1 tool=" := by decide
  have hmarker : newline ∉ lit "<!-- cadoo:fp v=1 tool=" ++ 32 :: rest := by
    have h₁ : newline ∉ lit "<!-- cadoo:fp v=1 tool=" := by decide
    have h₂ : newline ≠ 32 := by decide
    simp [h₁,h₂,hrest]
  obtain ⟨k,hbody⟩ := trimRight_append_replicate body newline
  rw [append_blank_line hbody,search_eq_none_iff]
  intro u w v cs hw hm
  obtain ⟨b,w',rfl,-⟩ := matches_head hm
  rcases append_eq_append_cons hw with ⟨g,hg,hv⟩ | ⟨g,-,hg⟩
  · -- it would start in the body
    rw [hlit] at hv
    have hnil := found_in_body hbody hb hg (List.cons_ne_nil newline g) (lit "!-- cadoo:fp v=1 tool=" ++ 32 :: rest)
    exact found_eq_nil_iff.mp hnil (newline :: b :: w') cs v (congrArg (newline :: ·) hv).symm hm
  rcases append_eq_append_cons hg with ⟨h,hh,hv⟩ | ⟨h,-,hh⟩
  · -- it would start at one of the line breaks
    obtain ⟨n,hn⟩ : ∃ n, newline :: h = List.replicate (n+1) newline := by
      refine ⟨h.length,List.eq_replicate_of_mem fun x hx => ?_⟩
      exact List.eq_of_mem_replicate (hh ▸ List.mem_append_right g hx)
    have hstop : ∀ a ∈ (lit "<!-- cadoo:fp v=1 tool=" ++ 32 :: rest).head?, (a == newline) = false := by
      rw [hlit]
      rintro _ ⟨⟩
      decide
    have hnil : inlineMarkerRe.found (List.replicate (n+1) newline ++ (lit "<!-- cadoo:fp v=1 tool=" ++ 32 :: rest)) =
        [] := by
      rw [inlineMarkerRe,found_run_seq _ (by simp) (by simp) hstop,found_lit_seq]
      · rfl
      · exact rejects_seq (rejects_lit (b := 60) (t := lit "!-- cadoo:fp v=1 tool=") (by decide))
    refine found_eq_nil_iff.mp hnil (newline :: b :: w') cs v ?_ hm
    rw [← hn]
    exact (congrArg (newline :: ·) hv).symm
  · exact hmarker (hh ▸ by simp)

end Search

section Title

/-- Whatever blanks are trimmed off a text with a location line in front, that line stays its first. -/
lemma firstLine_trimSpace {s m r : Bytes} {n : ℕ} (hm : newline ∉ m)
    (h : s ++ List.replicate n newline = 96 :: (m ++ 41 :: newline :: r)) :
    FirstLine (trimSpace s) = 96 :: (m ++ [41]) := by
  obtain ⟨front,back,hs,hblank⟩ := trimSpace_split s
  have hfront : front = [] := by
    cases front with
    | nil => rfl
    | cons f front =>
      rw [hs] at h
      obtain rfl : f = 96 := (List.cons_eq_cons.mp h).1
      exact absurd (hblank 96 (by simp)) (by decide)
  have hback : 41 ∉ back ++ List.replicate n newline := by
    rw [List.mem_append,not_or]
    exact ⟨fun hb => absurd (hblank 41 (by simp [hb])) (by decide),
      fun hb => absurd (List.eq_of_mem_replicate hb) (by decide)⟩
  rw [hs,hfront,List.nil_append,List.append_assoc] at h
  have hline : newline ∉ 96 :: (m ++ [41]) := by
    have h₁ : newline ≠ 96 ∧ newline ≠ 41 := by decide
    simp [h₁,hm]
  rcases append_eq_append_cons (a := 96 :: m) h with ⟨g,hg,hr⟩ | ⟨g,-,hg⟩
  · have htrim : trimSpace s = (96 :: (m ++ [41])) ++ g := by simp [hg]
    rw [FirstLine,htrim]
    cases g with
    | nil => rw [List.append_nil,cut_eq_none_of_notMem hline]
    | cons b g =>
      obtain rfl : newline = b := (List.cons_eq_cons.mp hr).1
      rw [cut_append_cons hline]
  · exact absurd (hg ▸ List.mem_append_right g List.mem_cons_self) hback

lemma severityPrefix_cases (sev : Severity) : severityPrefix sev = lit "**[BLOCK]** " ∨
    severityPrefix sev = lit "**[WARN]** " ∨ severityPrefix sev = lit "_[nit]_ " ∨ severityPrefix sev = [] := by
  rw [severityPrefix]
  split
  · exact .inl rfl
  · split
    · exact .inr (.inl rfl)
    · split
      · exact .inr (.inr (.inl rfl))
      · exact .inr (.inr (.inr rfl))

/-- No severity prefix has a line break, and none starts as a marker or a location does. -/
lemma severityPrefix_front (sev : Severity) : newline ∉ severityPrefix sev ∧
    ∀ b ∈ (severityPrefix sev).head?, b ≠ 60 ∧ b ≠ 96 := by
  rcases severityPrefix_cases sev with h | h | h | h
  · rw [h]
    exact ⟨by decide,by rintro _ ⟨⟩; decide⟩
  · rw [h]
    exact ⟨by decide,by rintro _ ⟨⟩; decide⟩
  · rw [h]
    exact ⟨by decide,by rintro _ ⟨⟩; decide⟩
  · rw [h]
    exact ⟨List.not_mem_nil,fun b hb => absurd hb (Option.not_mem_none b)⟩

lemma trimPrefix_severity (sev : Severity) (s : Bytes) :
    trimPrefix (96 :: s) (formatSeverity sev) = 96 :: s := by
  obtain ⟨-,hhead⟩ := severityPrefix_front sev
  rw [formatSeverity]
  cases hp : severityPrefix sev with
  | nil => rfl
  | cons b p =>
    rw [hp] at hhead
    have hne := (hhead b rfl).2
    rw [trimPrefix,if_neg]
    simp [hasPrefix,hne]

end Title

section ReadBack
variable (U : Tables) {W : Type} (api : API W) (pr : PullRequest) {tool : Bytes} {c : InlineComment} {line : ℤ}
  {discussion : Bytes} {note : Note}

/-- The text of the note posted for a stamped comment that is outside the diff. -/
def unanchoredText (tool : Bytes) (c : InlineComment) (line : ℤ) : Bytes :=
  locationLine c.file line ++ newline :: newline :: (severityPrefix c.severity ++ StampInline U tool c)

lemma postUnanchoredNote_text (body : Bytes) (w : W) : (postUnanchoredNote api pr c.file line body w).2 =
    (api.createMergeRequestNote pr.repoFullName pr.number
      (locationLine c.file line ++ newline :: newline :: body) w).2 := by
  have hlit : lit "` (outside diff)\n\n" = lit "` (outside diff)" ++ [newline,newline] := by decide
  rw [postUnanchoredNote,hlit,locationLine,location]
  simp only [List.append_assoc,List.cons_append,List.nil_append]

lemma locationLine_ends {file : Bytes} (h : newline ∉ file) :
    ∃ m, newline ∉ m ∧ locationLine file line = 96 :: (m ++ [41]) := by
  have h₁ : lit "`" = [96] := by decide
  have h₂ : lit "` (outside diff)" = lit "` (outside diff" ++ [41] := by decide
  have h₃ : newline ∉ lit "` (outside diff" := by decide
  have hloc : newline ∉ location file line := notMem_location h (by decide) (by decide)
  refine ⟨location file line ++ lit "` (outside diff",?_,?_⟩
  · rw [List.mem_append,not_or]
    exact ⟨hloc,h₃⟩
  · rw [locationLine,h₁,h₂]
    simp only [List.append_assoc,List.cons_append,List.nil_append]

section Texts
variable (hfile : newline ∉ c.file) (htool : ∀ b ∈ tool, reNonSpace b = true)
  (hsev : ∀ b ∈ c.severity, reNonSpace b = true) (hbody : inlineMarkerRe.search (newline :: c.body) = none)
include hfile hbody

lemma search_front : inlineMarkerRe.search (locationLine c.file line ++ newline :: newline ::
    (severityPrefix c.severity ++ c.body)) = none := by
  obtain ⟨hnewline,hhead⟩ := severityPrefix_front c.severity
  exact search_located (newline_notMem_locationLine hfile) hnewline (fun b hb => (hhead b hb).1) hbody

include htool hsev

/-- The marker is found behind the location, and what stands before it is kept. -/
lemma ParseInlineMarker_unanchored (ht : tool ≠ []) : ParseInlineMarker (unanchoredText U tool c line) =
    some (stampData U tool c,trimRight (locationLine c.file line ++ newline :: newline ::
      (severityPrefix c.severity ++ c.body)) newline) := by
  have hfront : inlineMarkerRe.search (locationLine c.file line ++ newline :: newline ::
      (severityPrefix c.severity ++ c.body)) = none := search_front hfile hbody
  have h := ParseInlineMarker_StampInline U
    (locationLine c.file line ++ newline :: newline :: severityPrefix c.severity) [] ht htool hsev
    (by simpa using hfront)
  simpa [unanchoredText] using h

/-- What a note outside the diff is read as: the location line is taken for the title. -/
theorem readNote_unanchored (ht : tool ≠ []) (hposition : note.position = none)
    (hnote : note.body = unanchoredText U tool c line) : readNote discussion note = some {
      tool := tool
      file := parseUnanchoredFile (locationLine c.file line)
      severity := c.severity
      structuralKey := StructuralKey U tool c
      title := locationLine c.file line
      normalizedTitle := normalizeTitle U c.body } := by
  have hline : newline ∉ locationLine c.file line := newline_notMem_locationLine hfile
  obtain ⟨m,hm,hends⟩ : ∃ m, newline ∉ m ∧ locationLine c.file line = 96 :: (m ++ [41]) :=
    locationLine_ends hfile
  have hfirst : FirstLine (unanchoredText U tool c line) = locationLine c.file line := by
    rw [FirstLine,unanchoredText,cut_append_cons hline]
  have hparse := @ParseInlineMarker_unanchored U tool c line hfile htool hsev hbody ht
  obtain ⟨n,hn⟩ := trimRight_append_replicate (locationLine c.file line ++ newline :: newline ::
    (severityPrefix c.severity ++ c.body)) newline
  generalize trimRight (locationLine c.file line ++ newline :: newline ::
    (severityPrefix c.severity ++ c.body)) newline = stripped at hparse hn
  rw [hends,List.cons_append,List.append_assoc,List.singleton_append] at hn
  have htitle := firstLine_trimSpace hm hn.symm
  obtain ⟨rest,rfl⟩ : ∃ rest, stripped = 96 :: rest := by
    cases stripped with
    | nil =>
      have hmem : 96 ∈ List.replicate n newline := by
        rw [← List.nil_append (List.replicate n newline),← hn]
        exact List.mem_cons_self
      exact absurd (List.eq_of_mem_replicate hmem) (by decide)
    | cons b rest => exact ⟨rest,by rw [(List.cons_eq_cons.mp hn).1]⟩
  rw [readNote,hnote,hparse]
  dsimp only
  rw [hposition]
  simp only [trimPrefix_severity,htitle,← hends,hfirst,stampData]

end Texts

/-- Nothing is read back of a stamp without a tool. -/
lemma readNote_toolless (hfile : newline ∉ c.file) (hsev : ∀ b ∈ c.severity, reNonSpace b = true)
    (hbody : inlineMarkerRe.search (newline :: c.body) = none)
    (hnote : note.body = unanchoredText U [] c line) : readNote discussion note = none := by
  have hspace : reNonSpace newline = false := by decide
  have hkey : newline ∉ StructuralKey U [] c := fun h => by simp [StructuralKey_nonSpace U [] c _ h] at hspace
  have hsev' : newline ∉ c.severity := fun h => by simp [hsev _ h] at hspace
  have henc : newline ∉ Base64.encode (normalizeTitle U c.body) := fun h =>
    absurd (Base64.encode_printable h) (by decide)
  have h₁ : newline ∉ lit "sk=" ∧ newline ∉ lit " sev=" ∧ newline ∉ lit " nt=" ∧ newline ∉ lit " -->" := by decide
  have hlit : lit " sk=" = 32 :: lit "sk=" := by decide
  obtain ⟨rest,hrest,hmarker⟩ : ∃ rest, newline ∉ rest ∧
      InlineMarker (stampData U [] c) = lit "<!-- cadoo:fp v=1 tool=" ++ 32 :: rest := by
    rw [InlineMarker]
    split
    · refine ⟨lit "sk=" ++ StructuralKey U [] c ++ lit " sev=" ++ c.severity ++ lit " -->",?_,?_⟩
      · simp [h₁,hkey,hsev']
      · simp [stampData,hlit]
    · refine ⟨lit "sk=" ++ StructuralKey U [] c ++ lit " sev=" ++ c.severity ++ lit " nt=" ++
        Base64.encode (normalizeTitle U c.body) ++ lit " -->",?_,?_⟩
      · simp [h₁,hkey,hsev',henc]
      · simp [stampData,hlit]
  have hfront : inlineMarkerRe.search (locationLine c.file line ++ newline :: newline ::
      (severityPrefix c.severity ++ c.body)) = none := search_front hfile hbody
  have hsearch := search_toolless hfront hrest
  have htext : unanchoredText U [] c line = locationLine c.file line ++ newline :: newline ::
      (severityPrefix c.severity ++ c.body) ++ (lit "\n\n" ++ InlineMarker (stampData U [] c)) := by
    simp [unanchoredText,StampInline]
  rw [readNote,hnote,htext,hmarker,ParseInlineMarker,hsearch]

lemma carried_note (hsystem : note.system = false) :
    carried ⟨discussion,[some note]⟩ = (readNote discussion note).toList := by
  simp [carried,hsystem]

/-- The finding is the comment again: its path, severity, key and first line. -/
def Restores (tool : Bytes) (c : InlineComment) (p : PriorInline) : Prop :=
  p.file = c.file ∧ p.severity = c.severity ∧ p.structuralKey = StructuralKey U tool c ∧
    p.title = trimSpace (FirstLine c.body)

/-- A server that keeps the notes of a merge request. -/
def noteHost : API (List Bytes) where
  getMergeRequest _ _ _ := .error []
  listMergeRequestDiffs _ _ _ := .error []
  createMergeRequestDiscussion _ _ _ _ notes := (.error [],notes)
  createMergeRequestNote _ _ text notes := (none,notes ++ [text])

/-- A note outside the diff gives the finding back just when its tool has a name, the path is none that the reader
cuts elsewhere, and the comment itself begins with the line that the writer puts before it. -/
theorem unanchored_restored_iff {sent : List Bytes} {before after : List Discussion} {pages : List (List Discussion)}
    {fuel : ℕ} (hne : c.file ≠ []) (hfile : newline ∉ c.file) (htool : ∀ b ∈ tool, reNonSpace b = true)
    (hsev : ∀ b ∈ c.severity, reNonSpace b = true) (hbody : inlineMarkerRe.search (newline :: c.body) = none)
    (hpost : (postUnanchoredNote noteHost pr c.file line
      (formatSeverity c.severity ++ StampInline U tool c) sent).2 = sent ++ [note.body])
    (hsystem : note.system = false) (hposition : note.position = none)
    (hpages : pages.flatten = before ++ ⟨discussion,[some note]⟩ :: after) (hfuel : pages.length ≤ fuel) :
    (∃ out p, ListCadooArtifacts (fun _ _ page => .ok (servePage pages page)) pr fuel = some (.ok out) ∧
      out.inline = before.flatMap carried ++ p :: after.flatMap carried ∧ Restores U tool c p) ↔
    tool ≠ [] ∧ (96 ∉ c.file ∧ (0 < line ∨ 58 ∉ c.file.tail)) ∧
      trimSpace (FirstLine c.body) = locationLine c.file line := by
  have hnote : note.body = unanchoredText U tool c line := by
    rw [postUnanchoredNote_text] at hpost
    exact (List.singleton_inj.mp (List.append_cancel_left hpost)).symm
  have hsome : pages ≠ [] := by
    rintro rfl
    simp at hpages
  obtain ⟨out,hout,hinline⟩ := ListCadooArtifacts_inline pr hsome hfuel
  rw [hpages,List.flatMap_append,List.flatMap_cons,carried_note hsystem] at hinline
  by_cases ht : tool = []
  · subst ht
    refine iff_of_false ?_ fun h => h.1 rfl
    rintro ⟨out',p,hout',hinline',-⟩
    obtain rfl : out = out' := by simpa [hout] using hout'
    rw [hinline,readNote_toolless U hfile hsev hbody hnote,Option.toList_none,List.nil_append] at hinline'
    have hlength := congrArg List.length (List.append_cancel_left hinline')
    rw [List.length_cons] at hlength
    omega
  · rw [readNote_unanchored U hfile htool hsev hbody ht hposition hnote,Option.toList_some,
      List.singleton_append] at hinline
    rw [and_iff_right ht,← parseUnanchoredFile_iff hne]
    constructor
    · rintro ⟨out',p,hout',hinline',hp⟩
      obtain rfl : out = out' := by simpa [hout] using hout'
      obtain rfl := (List.cons_eq_cons.mp (List.append_cancel_left (hinline.symm.trans hinline'))).1
      exact ⟨hp.1,hp.2.2.2.symm⟩
    · rintro ⟨hread,htitle⟩
      exact ⟨out,_,hout,hinline,hread,rfl,rfl,htitle.symm⟩

end ReadBack

section Examples

def appRequest : PullRequest where
  repoFullName := lit "group/app"
  number := 7

def noteOf (c : InlineComment) : Note where
  id := 1
  body := unanchoredText Tables.plain (lit "review") c 40

/-- The title of any finding is the location. -/
theorem location_read_as_title : (postUnanchoredNote noteHost appRequest (lit "server.go") 40
      (formatSeverity leakyHandler.severity ++ StampInline Tables.plain (lit "review") leakyHandler) []).2 =
        [(noteOf leakyHandler).body] ∧
    ∃ out p, ListCadooArtifacts (fun _ _ page => .ok (servePage [[⟨lit "d1",[some (noteOf leakyHandler)]⟩]] page))
      appRequest 1 = some (.ok out) ∧ out.inline = [p] ∧ p.title = lit "`server.go:40` (outside diff)" ∧
      ¬ Restores Tables.plain (lit "review") leakyHandler p := by
  have hfile : newline ∉ leakyHandler.file := by decide
  have htool : ∀ b ∈ lit "review", reNonSpace b = true := List.all_eq_true.mp rfl
  have hsev : ∀ b ∈ leakyHandler.severity, reNonSpace b = true := List.all_eq_true.mp rfl
  have hbody : inlineMarkerRe.search (newline :: leakyHandler.body) = none := by decide +kernel
  obtain ⟨p,hread,htitle⟩ : ∃ p, readNote (lit "d1") (noteOf leakyHandler) = some p ∧
      p.title = locationLine leakyHandler.file 40 :=
    ⟨_,readNote_unanchored Tables.plain hfile htool hsev hbody (by decide) rfl rfl,rfl⟩
  have hline : locationLine leakyHandler.file 40 = lit "`server.go:40` (outside diff)" := by decide +kernel
  let served : List (List Discussion) := [[⟨lit "d1",[some (noteOf leakyHandler)]⟩]]
  have hserved : served ≠ [] := List.cons_ne_nil _ _
  obtain ⟨out,hout,hinline⟩ := ListCadooArtifacts_inline appRequest hserved (Nat.le_refl 1)
  have hcarried : served.flatten.flatMap carried = (readNote (lit "d1") (noteOf leakyHandler)).toList := by
    simp only [served,List.flatten_cons,List.flatten_nil,List.append_nil,List.flatMap_cons,List.flatMap_nil]
    exact carried_note rfl
  refine ⟨rfl,out,p,hout,?_,htitle.trans hline,fun h => ?_⟩
  · rw [hinline,hcarried,hread,Option.toList_some]
  · have hne : locationLine leakyHandler.file 40 ≠ trimSpace (FirstLine leakyHandler.body) := by decide +kernel
    exact hne (htitle.symm.trans h.2.2.2)

/-- A comment that begins with its own location. -/
def locatedHandler : InlineComment :=
  { leakyHandler with body := lit "`server.go:40` (outside diff)\n\nLeaks a goroutine." }

theorem located_comment_restored : ∃ out p,
    ListCadooArtifacts (fun _ _ page => .ok (servePage [[⟨lit "d1",[some (noteOf locatedHandler)]⟩]] page))
      appRequest 1 = some (.ok out) ∧ out.inline = [] ++ p :: [] ∧
        Restores Tables.plain (lit "review") locatedHandler p :=
  (@unanchored_restored_iff Tables.plain appRequest (lit "review") locatedHandler 40 (lit "d1")
    (noteOf locatedHandler) [] [] [] [[⟨lit "d1",[some (noteOf locatedHandler)]⟩]] 1 (by decide) (by decide)
    (List.all_eq_true.mp rfl) (List.all_eq_true.mp rfl) (by decide +kernel)
    (by rw [postUnanchoredNote_text]; rfl) rfl rfl rfl (Nat.le_refl 1)).mpr ⟨by decide,by decide,by decide +kernel⟩

end Examples

end GitLab
