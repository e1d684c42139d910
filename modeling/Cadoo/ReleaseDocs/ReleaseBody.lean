import Cadoo.Lib.Splice
import Cadoo.ReleaseDocs.Publishers

/-! Publishing release notes once more: the second run reads the body back that the first one sent. -/
namespace ReleaseDocs.ReleaseBody
open Bytes Utf8 Vcs

/-- The marks of the release notes. -/
def notesMarks : Splice.Marks where
  opens := ReleaseNotesBegin
  closes := ReleaseNotesEnd
  title := []
  opens_delimited := by
    have hshape : ReleaseNotesBegin = 60 :: ((ReleaseNotesBegin.drop 1).dropLast ++ [62]) := by decide
    rw [hshape]
    exact .of_notMem (by decide) (by decide)
  closes_delimited := by
    have hshape : ReleaseNotesEnd = 60 :: ((ReleaseNotesEnd.drop 1).dropLast ++ [62]) := by decide
    rw [hshape]
    exact .of_notMem (by decide) (by decide)
  opens_line := by decide
  closes_line := by decide
  opens_title := rfl
  closes_title := rfl
  opens_closes := by decide
  closes_opens := by decide

lemma joinReleaseBody_eq (u sec tail : Bytes) : joinReleaseBody u sec tail = Splice.join notesMarks u sec tail := by
  change _ = Splice.padded u ++ (ReleaseNotesBegin ++ newline :: (sec ++ [newline]) ++ ReleaseNotesEnd) ++
    Splice.follow (tail.dropWhile Splice.blank)
  rw [joinReleaseBody,Splice.padded,Splice.follow]
  simp only [List.append_assoc,List.cons_append,List.nil_append]
  rfl

lemma SpliceReleaseBody_eq (original sec : Bytes) :
    SpliceReleaseBody original sec = Splice.splice notesMarks original (trimSpace sec) := by
  rw [SpliceReleaseBody,Splice.splice]
  simp only [joinReleaseBody_eq]
  rfl

variable {W : Type} {rc : ReleaseContext W} {arts : List Artifact} {rp : ReleasePublisher W} {rel : Release}

/-- A host that keeps the body it takes for the release of the tag, sent by number or by tag. -/
structure Stores (rc : ReleaseContext W) (rp : ReleasePublisher W) : Prop where
  byNumber : ∀ host rel body, rp.getReleaseByTag rc.repo rc.toRef host = .ok rel →
    (rp.updateReleaseBody rc.repo rel.id body host).1 = none →
      rp.getReleaseByTag rc.repo rc.toRef (rp.updateReleaseBody rc.repo rel.id body host).2 =
        .ok { rel with body := body }
  byTag : ∀ updateByTag, rc.provider.updateReleaseBodyByTag = some updateByTag →
    ∀ host rel body, rp.getReleaseByTag rc.repo rc.toRef host = .ok rel →
      (updateByTag rc.repo rel.tagName body host).1 = none →
        rp.getReleaseByTag rc.repo rc.toRef (updateByTag rc.repo rel.tagName body host).2 =
          .ok { rel with body := body }

lemma update_stored (hstores : Stores rc rp) {w : World W} (hrel : rp.getReleaseByTag rc.repo rc.toRef w.host = .ok rel)
    {body : Bytes} (hok : (update rc rp rel body w).1 = none) :
    rp.getReleaseByTag rc.repo rc.toRef (update rc rp rel body w).2.host = .ok { rel with body := body } := by
  rw [update] at hok ⊢
  split at hok
  · next htag =>
    rw [if_pos htag]
    split at hok
    · exact absurd hok (by simp)
    · next updateByTag hu =>
      exact hstores.byTag updateByTag hu w.host rel body hrel (Option.map_eq_none_iff.mp hok)
  · next htag =>
    rw [if_neg htag]
    exact hstores.byNumber w.host rel body hrel (Option.map_eq_none_iff.mp hok)

/-- A release that can be read is written to exactly when the notes change its body and the body can be sent. -/
lemma publish_writes (hrp : rc.provider.releasePublisher = some rp) (hnotes : firstContent .releaseNotes arts ≠ [])
    {w : World W} (hrel : rp.getReleaseByTag rc.repo rc.toRef w.host = .ok rel) :
    (Publish rc arts w).2.writes = w.writes ↔
      SpliceReleaseBody rel.body (firstContent .releaseNotes arts) = rel.body ∨ Unreachable rc rel := by
  obtain ⟨ws,hws,-,hidle⟩ := publish_adds rc arts w
  have hnothing : (Publish rc arts w).2.writes = w.writes ↔ Idle rc arts w.host := by
    rw [hws,← hidle,List.append_right_eq_self]
  rw [hnothing]
  constructor
  · intro h
    by_cases hbody : SpliceReleaseBody rel.body (firstContent .releaseNotes arts) = rel.body
    · exact .inl hbody
    · exact .inr (h rp rel ⟨hrp,hnotes,hrel,hbody⟩)
  · intro h rp' rel' hc
    obtain rfl := Option.some.inj (hrp.symm.trans hc.publisher)
    obtain rfl := Except.ok.inj (hrel.symm.trans hc.release)
    exact h.resolve_left hc.body

/-- After a run that succeeds the release has the spliced body, and that is the old one where no body can be sent. -/
lemma publish_stored (hrp : rc.provider.releasePublisher = some rp) (hstores : Stores rc rp)
    (hnotes : firstContent .releaseNotes arts ≠ []) {w : World W}
    (hrel : rp.getReleaseByTag rc.repo rc.toRef w.host = .ok rel) (hok : (Publish rc arts w).1 = none) :
    rp.getReleaseByTag rc.repo rc.toRef (Publish rc arts w).2.host =
        .ok { rel with body := SpliceReleaseBody rel.body (firstContent .releaseNotes arts) } ∧
      (Unreachable rc rel → SpliceReleaseBody rel.body (firstContent .releaseNotes arts) = rel.body) := by
  have hrun : Publish rc arts w =
      if SpliceReleaseBody rel.body (firstContent .releaseNotes arts) = rel.body then (none,w)
      else update rc rp rel (SpliceReleaseBody rel.body (firstContent .releaseNotes arts)) w := by
    simp only [Publish,hrp,if_neg hnotes,hrel]
  by_cases hbody : SpliceReleaseBody rel.body (firstContent .releaseNotes arts) = rel.body
  · rw [hrun,if_pos hbody,hbody]
    exact ⟨hrel,fun _ => rfl⟩
  · rw [hrun,if_neg hbody] at hok ⊢
    refine ⟨update_stored hstores hrel hok,fun hreach => ?_⟩
    rw [update,if_pos ⟨hreach.1,hreach.2.1⟩,hreach.2.2] at hok
    exact absurd hok (by simp)

/-- A second run makes no update, and the operator's text is kept, exactly when the notes have no end marker and the
body has no marker at all or its first two are around a well-formed block. -/
theorem second_publish_iff (hrp : rc.provider.releasePublisher = some rp) (hstores : Stores rc rp)
    (hnotes : firstContent .releaseNotes arts ≠ []) {w : World W}
    (hrel : rp.getReleaseByTag rc.repo rc.toRef w.host = .ok rel) (hok : (Publish rc arts w).1 = none) :
    ((Publish rc arts (Publish rc arts w).2).2.writes = (Publish rc arts w).2.writes ∧
      ∃ body, rp.getReleaseByTag rc.repo rc.toRef (Publish rc arts w).2.host = .ok { rel with body := body } ∧
        Splice.Keeps notesMarks rel.body (trimSpace (firstContent .releaseNotes arts)) body) ↔
    ¬ ReleaseNotesEnd <:+: trimSpace (firstContent .releaseNotes arts) ∧
      Splice.Spliceable notesMarks rel.body (trimSpace (firstContent .releaseNotes arts)) := by
  obtain ⟨hstored,hreach⟩ := publish_stored hrp hstores hnotes hrel hok
  have hkept : (∃ body, rp.getReleaseByTag rc.repo rc.toRef (Publish rc arts w).2.host = .ok { rel with body := body } ∧
      Splice.Keeps notesMarks rel.body (trimSpace (firstContent .releaseNotes arts)) body) ↔
      Splice.Keeps notesMarks rel.body (trimSpace (firstContent .releaseNotes arts))
        (SpliceReleaseBody rel.body (firstContent .releaseNotes arts)) := by
    constructor
    · rintro ⟨body,hbody,hkeeps⟩
      rw [hstored] at hbody
      have hsame : SpliceReleaseBody rel.body (firstContent .releaseNotes arts) = body :=
        congrArg Release.body (Except.ok.inj hbody)
      rwa [hsame]
    · exact fun h => ⟨_,hstored,h⟩
  have hwrites : (Publish rc arts (Publish rc arts w).2).2.writes = (Publish rc arts w).2.writes ↔
      SpliceReleaseBody (SpliceReleaseBody rel.body (firstContent .releaseNotes arts)) (firstContent .releaseNotes arts) =
        SpliceReleaseBody rel.body (firstContent .releaseNotes arts) := by
    refine (publish_writes hrp hnotes hstored).trans (or_iff_left_of_imp fun h => ?_)
    have hsame := hreach h
    rw [hsame,hsame]
  have hunended : ¬ ReleaseNotesEnd <:+: trimSpace (firstContent .releaseNotes arts) ↔
      occurrences notesMarks.closes (trimSpace (firstContent .releaseNotes arts)) = 0 :=
    (occurrences_eq_zero notesMarks.closes_delimited.opens.ne_nil).symm
  rw [hkept,hwrites,hunended]
  simp only [SpliceReleaseBody_eq]
  by_cases hend : occurrences notesMarks.closes (trimSpace (firstContent .releaseNotes arts)) = 0
  · rw [Splice.splice_again_iff rel.body hend hend]
    exact (and_iff_right hend).symm
  · exact iff_of_false (fun h => Splice.splice_again_ne rel.body hend h.1) fun h => hend h.1

section Examples

/-- A host with one release. -/
def keeper : ReleasePublisher Release where
  getReleaseByTag _ _ rel := .ok rel
  updateReleaseBody _ _ body rel := (none,{ rel with body := body })

def context : ReleaseContext Release where
  repo := lit "acme/app"
  org := []
  fromRef := lit "v1.1.0"
  toRef := lit "v1.2.0"
  bump := .minor
  commits := []
  mergedPRs := []
  config := {}
  provider := { kind := KindGitHub, releasePublisher := some keeper }
  groupedModel := []

def notes : List Artifact := [⟨.releaseNotes,lit "Two fixes.",[]⟩]

def released (body : Bytes) : World Release := { host := ⟨7,lit "v1.2.0",body⟩ }

lemma keeper_stores : Stores context keeper where
  byNumber host rel body h _ := by
    rw [← Except.ok.inj h]
    rfl
  byTag updateByTag h := absurd h (by simp [context])

theorem plain_body_settles :
    let once := (Publish context notes (released (lit "Thanks to all."))).2
    (Publish context notes once).2.writes = once.writes ∧
      ∃ body, keeper.getReleaseByTag context.repo context.toRef once.host = .ok ⟨7,lit "v1.2.0",body⟩ ∧
        Splice.Keeps notesMarks (lit "Thanks to all.") (trimSpace (lit "Two fixes.")) body :=
  (second_publish_iff rfl keeper_stores (by decide) rfl rfl).mpr ⟨by decide +kernel,.inl (by decide +kernel)⟩

/-- A begin marker pasted by the operator. -/
def stray : Bytes := lit "Thanks to all.\n" ++ ReleaseNotesBegin ++ lit "\nKeep this."

/-- The second run drops what follows the pasted marker. Notes that quote the end marker are written again, too. -/
theorem stray_marker_loses_text :
    (let once := (Publish context notes (released stray)).2
     let twice := (Publish context notes once).2
     (Publish context notes (released stray)).1 = none ∧ twice.writes ≠ once.writes ∧
       lit "Keep this." <:+: once.host.body ∧ ¬ lit "Keep this." <:+: twice.host.body) ∧
    let quoted : List Artifact := [⟨.releaseNotes,lit "Notes end with " ++ ReleaseNotesEnd ++ lit " now.",[]⟩]
    let once := (Publish context quoted (released [])).2
    (Publish context quoted once).2.writes ≠ once.writes := by
  decide +kernel

end Examples

end ReleaseDocs.ReleaseBody
