import Cadoo.Lib.Paging
import Cadoo.Vcs.GitLab
import Cadoo.Vcs.Marker

/-! The GitLab adapter's read-back: the notes of a merge request, anchored or not, and what is made of the location
that stands before an unanchored one. -/
namespace GitLab
open Bytes Utf8 Paging Vcs

structure NotePosition where
  newPath : Bytes
  oldPath : Bytes
  newLine : ℤ

structure Note where
  id : ℤ
  body : Bytes
  system : Bool := false
  resolved : Bool := false
  position : Option NotePosition := none

/-- A discussion; a note of it may be null. -/
structure Discussion where
  id : Bytes
  notes : List (Option Note)

/-- `strings.LastIndexByte`. -/
def lastIndexByte (b : UInt8) : Bytes → Option ℕ
  | [] => none
  | c :: s =>
    match lastIndexByte b s with
    | some i => some (i+1)
    | none => if c = b then some 0 else none

/-- The path of the location that a note begins with, without its line. -/
def parseUnanchoredFile (firstLine : Bytes) : Bytes :=
  if hasPrefix firstLine (lit "`") = false then []
  else match cut firstLine.tail (lit "`") with
    | none => []
    | some (loc,_) =>
      match lastIndexByte 58 loc with
      | some i => if 0 < i then loc.take i else loc
      | none => loc

/-- The finding a note carries, when it has a marker. -/
def readNote (discussion : Bytes) (n : Note) : Option PriorInline :=
  match ParseInlineMarker n.body with
  | none => none
  | some (md,stripped) =>
    let title := FirstLine (trimSpace (trimPrefix stripped (formatSeverity md.sev)))
    match n.position with
    | some pos => some {
        tool := md.tool
        file := if pos.newPath = [] then pos.oldPath else pos.newPath
        severity := md.sev
        structuralKey := md.sk
        title := title
        normalizedTitle := md.nt
        externalID := discussion
        resolved := n.resolved
        line := pos.newLine
        endLine := pos.newLine }
    | none => some {
        tool := md.tool
        file := parseUnanchoredFile (FirstLine n.body)
        severity := md.sev
        structuralKey := md.sk
        title := title
        normalizedTitle := md.nt }

def scanNote (discussion : Bytes) (out : PriorReview) (note : Option Note) : PriorReview :=
  match note with
  | none => out
  | some n =>
    if n.system then out
    else match readNote discussion n with
      | some found => { out with inline := out.inline ++ [found] }
      | none =>
        if n.position.isNone && contains n.body SummaryWrapperBegin then
          { out with summaryCommentID := intDecimal n.id, lastReviewedSHA := ParseReviewedSHA n.body }
        else out

def scanDiscussion (out : PriorReview) (d : Discussion) : PriorReview := d.notes.foldl (scanNote d.id) out

def ListCadooArtifacts (listDiscussions : Bytes → ℤ → ℕ → Except Err (NumberedPage Discussion)) (pr : PullRequest)
    (fuel : ℕ) : Option (Except Err PriorReview) :=
  loop (listDiscussions pr.repoFullName pr.number)
    (fun out d => (.ok (scanDiscussion out d) : Except (Except Err PriorReview) PriorReview))
    (fun e => .error (lit "list mr discussions: " ++ e)) .ok fuel 1 {}

section ReadBack

/-- The findings that the notes of a discussion carry. -/
def carried (d : Discussion) : List PriorInline :=
  d.notes.flatMap fun note => (note.bind fun n => if n.system then none else readNote d.id n).toList

lemma inline_scanNote (discussion : Bytes) (out : PriorReview) (note : Option Note) :
    (scanNote discussion out note).inline = out.inline ++
      (note.bind fun n => if n.system then none else readNote discussion n).toList := by
  cases note with
  | none => exact (List.append_nil _).symm
  | some n =>
    cases hs : n.system with
    | true => simp [scanNote,hs]
    | false =>
      cases hr : readNote discussion n with
      | none =>
        have hsame : (if n.position.isNone && contains n.body SummaryWrapperBegin then
            { out with summaryCommentID := intDecimal n.id, lastReviewedSHA := ParseReviewedSHA n.body }
          else out).inline = out.inline := by split <;> rfl
        simpa [scanNote,hs,hr] using hsame
      | some found => simp [scanNote,hs,hr]

lemma inline_scanDiscussion (out : PriorReview) (d : Discussion) :
    (scanDiscussion out d).inline = out.inline ++ carried d := by
  rw [scanDiscussion,carried]
  generalize d.notes = notes
  induction notes generalizing out with
  | nil => exact (List.append_nil _).symm
  | cons note notes ih => rw [List.foldl_cons,ih,inline_scanNote,List.flatMap_cons,List.append_assoc]

/-- However the discussions are split into pages, the findings read back are those that their notes carry. -/
theorem ListCadooArtifacts_inline (pr : PullRequest) {pages : List (List Discussion)} (hpages : pages ≠ [])
    {fuel : ℕ} (hfuel : pages.length ≤ fuel) : ∃ out,
    ListCadooArtifacts (fun _ _ page => .ok (servePage pages page)) pr fuel = some (.ok out) ∧
      out.inline = pages.flatten.flatMap carried := by
  have hinline : ∀ (ds : List Discussion) (out : PriorReview),
      (ds.foldl scanDiscussion out).inline = out.inline ++ ds.flatMap carried := by
    intro ds
    induction ds with
    | nil => exact fun out => (List.append_nil _).symm
    | cons d ds ih =>
      intro out
      rw [List.foldl_cons,ih,inline_scanDiscussion,List.flatMap_cons,List.append_assoc]
  refine ⟨pages.flatten.foldl scanDiscussion {},?_,hinline pages.flatten {}⟩
  have hloop := loop_first (fun out d => (.ok (scanDiscussion out d) : Except (Except Err PriorReview) PriorReview))
    (fun e : Err => .error (lit "list mr discussions: " ++ e)) .ok hpages (Nat.le_refl 1) hfuel {}
  rw [outcome_ok] at hloop
  exact hloop

end ReadBack

section Location

lemma lastIndexByte_eq_none {b : UInt8} {s : Bytes} (h : b ∉ s) : lastIndexByte b s = none := by
  induction s with
  | nil => rfl
  | cons c s ih =>
    rw [List.mem_cons,not_or] at h
    rw [lastIndexByte,ih h.2,if_neg (Ne.symm h.1)]

lemma lastIndexByte_append {b : UInt8} {y : Bytes} (x : Bytes) (h : b ∉ y) :
    lastIndexByte b (x ++ b :: y) = some x.length := by
  induction x with
  | nil => rw [List.nil_append,lastIndexByte,lastIndexByte_eq_none h,if_pos rfl,List.length_nil]
  | cons c x ih => rw [List.cons_append,lastIndexByte,ih,List.length_cons]

variable (file : Bytes) (line : ℤ)

/-- Where an unanchored note says it belongs. -/
def location : Bytes := if 0 < line then file ++ lit ":" ++ intDecimal line else file

/-- The first line of an unanchored note. -/
def locationLine : Bytes := lit "`" ++ location file line ++ lit "` (outside diff)"

variable {file line}

/-- No line number has other bytes than digits. -/
lemma notMem_intDecimal (h : 0 < line) {b : UInt8} (hb : isDecimal b = false) : b ∉ intDecimal line := by
  cases line with
  | ofNat n => exact fun hm => absurd (isDecimal_of_mem_natDecimal hm) (by simp [hb])
  | negSucc n => exact absurd h (by omega)

lemma notMem_location {b : UInt8} (hfile : b ∉ file) (hdec : isDecimal b = false) (hb : b ≠ 58) :
    b ∉ location file line := by
  have hlit : lit ":" = [58] := by decide
  rw [location]
  split
  · next h =>
    rw [hlit,List.mem_append,List.mem_append,not_or,not_or,List.mem_singleton]
    exact ⟨⟨hfile,hb⟩,notMem_intDecimal h hdec⟩
  · exact hfile

lemma newline_notMem_locationLine (h : newline ∉ file) : newline ∉ locationLine file line := by
  have hlit : newline ∉ lit "`" ∧ newline ∉ lit "` (outside diff)" := by decide
  have hloc : newline ∉ location file line := notMem_location h (by decide) (by decide)
  simp only [locationLine,List.mem_append,not_or]
  exact ⟨⟨hlit.1,hloc⟩,hlit.2⟩

/-- The path read out of a location. -/
def readPath (loc : Bytes) : Bytes :=
  match lastIndexByte 58 loc with
  | some i => if 0 < i then loc.take i else loc
  | none => loc

lemma length_readPath_le (loc : Bytes) : (readPath loc).length ≤ loc.length := by
  rw [readPath]
  cases lastIndexByte 58 loc with
  | none => exact Nat.le_refl _
  | some i =>
    dsimp only
    split
    · exact List.length_take_le' i loc
    · exact Nat.le_refl _

lemma readPath_colon {x y : Bytes} (hx : x ≠ []) (hy : 58 ∉ y) : readPath (x ++ 58 :: y) = x := by
  rw [readPath,lastIndexByte_append x hy]
  dsimp only
  rw [if_pos (List.length_pos_of_ne_nil hx),List.take_left]

/-- A colon is taken for that of a line wherever it stands, but at the very front. -/
lemma readPath_eq_self_iff {s : Bytes} (hs : s ≠ []) : readPath s = s ↔ 58 ∉ s.tail := by
  obtain ⟨c,t,rfl⟩ := List.exists_cons_of_ne_nil hs
  rw [List.tail_cons]
  by_cases hcolon : 58 ∈ t
  · refine iff_of_false (fun h => ?_) fun h => h hcolon
    obtain ⟨y,x,hyx,hy⟩ := List.eq_append_cons_of_mem (List.mem_reverse.mpr hcolon)
    have ht : c :: t = (c :: x.reverse) ++ 58 :: y.reverse := by
      rw [← List.reverse_reverse t,hyx]
      simp
    rw [ht,readPath_colon (List.cons_ne_nil _ _) (mt List.mem_reverse.mp hy)] at h
    have hlength := congrArg List.length h
    simp at hlength
  · refine iff_of_true ?_ hcolon
    rw [readPath,lastIndexByte,lastIndexByte_eq_none hcolon]
    by_cases hc : c = 58
    · rw [if_pos hc]
      rfl
    · rw [if_neg hc]

/-- What is read up to the first backquote of a location. -/
lemma parseUnanchoredFile_cut {x y : Bytes} (hx : 96 ∉ x) :
    parseUnanchoredFile (96 :: (x ++ 96 :: y)) = readPath x := by
  have hlit : lit "`" = [96] := by decide
  have htick : hasPrefix (96 :: (x ++ 96 :: y)) (lit "`") = true := by simp [hlit,hasPrefix]
  rw [parseUnanchoredFile,htick,hlit,List.tail_cons,cut_append_cons hx]
  rfl

/-- The path is read back just when it has no backquote, and no colon that is taken for that of a line. -/
theorem parseUnanchoredFile_iff (hfile : file ≠ []) :
    parseUnanchoredFile (locationLine file line) = file ↔ 96 ∉ file ∧ (0 < line ∨ 58 ∉ file.tail) := by
  have htext : locationLine file line = 96 :: (location file line ++ 96 :: lit " (outside diff)") := by
    have h₁ : lit "`" = [96] := by decide
    have h₂ : lit "` (outside diff)" = 96 :: lit " (outside diff)" := by decide
    rw [locationLine,h₁,h₂]
    rfl
  by_cases htick : 96 ∈ file
  · -- what is read ends before the backquote
    refine iff_of_false (fun h => ?_) fun h => h.1 htick
    obtain ⟨x,y,hxy,hx⟩ := List.eq_append_cons_of_mem htick
    obtain ⟨z,hz⟩ : ∃ z, location file line = file ++ z := by
      rw [location]
      split
      · exact ⟨_,List.append_assoc _ _ _⟩
      · exact ⟨[],(List.append_nil _).symm⟩
    rw [htext,hz,hxy,List.append_assoc,List.append_assoc,List.cons_append,parseUnanchoredFile_cut hx] at h
    have hle := length_readPath_le x
    rw [h,List.length_append,List.length_cons] at hle
    omega
  · rw [and_iff_right htick,htext,parseUnanchoredFile_cut (notMem_location htick (by decide) (by decide))]
    by_cases hpos : 0 < line
    · have hlit : lit ":" = [58] := by decide
      have hdigits := notMem_intDecimal hpos (b := 58) (by decide)
      rw [location,if_pos hpos,hlit,List.append_assoc,List.singleton_append,readPath_colon hfile hdigits]
      exact iff_of_true rfl (.inl hpos)
    · rw [location,if_neg hpos,or_iff_right hpos]
      exact readPath_eq_self_iff hfile

end Location

end GitLab
